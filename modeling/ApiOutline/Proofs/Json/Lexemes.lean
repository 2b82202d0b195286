import ApiOutline.Json.Comments
import Mathlib.Data.Bool.AllAny
import Mathlib.Data.List.Infix
import Mathlib.Data.List.TakeWhile

/-!
# Lexemes of a text with comments

A text with comments is a row of lexemes: string literals, comments of both kinds, and runs of
characters that begin neither. `Lexeme` carries what makes each of them complete, so a row is a text
as it stands, but for one thing that no lexeme can say of itself: a line comment runs to the end of
its line (`LinesEnd`).

Stripping deletes the comments of a row, and then every comma in what is left that has a closing
bracket or brace after it, apart from blanks (`stripComments_row`). The second step takes the commas
inside string literals as it takes the others. Where no literal holds such a comma, all literals
stay as they are, which is `stripComments_text`.
-/

namespace ApiOutline

namespace Json

/-! ### Commas before closing marks -/

/-- The first character that is no blank. -/
def nextMark? (cs : List Char) : Option Char :=
  cs.find? fun c => !Text.isBlank c

/-- What comes next, apart from blanks, is a closing bracket or brace. -/
def Closes (cs : List Char) : Prop :=
  nextMark? cs = some ']' ∨ nextMark? cs = some '\x7d'

instance : DecidablePred Closes := fun cs =>
  inferInstanceAs (Decidable (nextMark? cs = some ']' ∨ nextMark? cs = some '\x7d'))

/-- `cs`, before `after`, without its commas that have a closing mark after them. -/
def withoutLastCommas : List Char → List Char → List Char
  | [], _ => []
  | c :: cs, after =>
    if c = ',' ∧ Closes (cs ++ after) then withoutLastCommas cs after
    else c :: withoutLastCommas cs after

/-- Some comma has a closing mark after it. -/
def HoldsLastComma (cs : List Char) : Prop :=
  ∃ before after, cs = before ++ ',' :: after ∧ Closes after

theorem closesNext_iff (cs : List Char) : closesNext cs = true ↔ Closes cs := by
  have hnext : nextMark? cs = (cs.dropWhile Text.isBlank).head? := by
    rw [nextMark?, List.find?_eq_head?_dropWhile_not]
    simp only [Bool.not_not]
  rw [Closes, hnext, closesNext]
  split
  · next h => simp [h]
  · next h => simp [h]
  · next hbrace hbracket =>
    refine iff_of_false Bool.false_ne_true ?_
    rintro (h | h)
    · obtain ⟨rest, hrest⟩ := List.head?_eq_some_iff.mp h
      exact hbracket rest hrest
    · obtain ⟨rest, hrest⟩ := List.head?_eq_some_iff.mp h
      exact hbrace rest hrest

theorem dropLastCommas_eq (cs : List Char) : dropLastCommas cs = withoutLastCommas cs [] := by
  induction cs with
  | nil => rfl
  | cons c cs ih =>
    rw [dropLastCommas, withoutLastCommas, ih, List.append_nil]
    simp only [Bool.and_eq_true, beq_iff_eq, closesNext_iff]

theorem withoutLastCommas_append (xs ys after : List Char) :
    withoutLastCommas (xs ++ ys) after =
      withoutLastCommas xs (ys ++ after) ++ withoutLastCommas ys after := by
  induction xs with
  | nil => rfl
  | cons c xs ih =>
    rw [List.cons_append, withoutLastCommas, withoutLastCommas, List.append_assoc, ih]
    split_ifs
    · rfl
    · rfl

/-- Where no comma has a closing mark after it, no comma goes. -/
theorem withoutLastCommas_eq_self {cs after : List Char} (h : ∀ before rest,
    cs = before ++ ',' :: rest → ¬Closes (rest ++ after)) : withoutLastCommas cs after = cs := by
  induction cs with
  | nil => rfl
  | cons c cs ih =>
    have hkept : ¬(c = ',' ∧ Closes (cs ++ after)) := by
      rintro ⟨rfl, hcloses⟩
      exact h [] cs rfl hcloses
    rw [withoutLastCommas, if_neg hkept, ih]
    intro before rest hcs
    exact h (c :: before) rest (by rw [hcs]; rfl)

private theorem length_withoutLastCommas_le (cs after : List Char) :
    (withoutLastCommas cs after).length ≤ cs.length := by
  induction cs with
  | nil => exact le_rfl
  | cons c cs ih =>
    rw [withoutLastCommas]
    split_ifs
    · exact ih.trans (Nat.le_succ _)
    · exact Nat.succ_le_succ ih

/-- A comma that has a closing mark after it goes. -/
theorem withoutLastCommas_ne_self {cs : List Char} (h : HoldsLastComma cs) :
    withoutLastCommas cs [] ≠ cs := by
  obtain ⟨before, after, rfl, hcloses⟩ := h
  intro heq
  have hlength := congrArg List.length heq
  have hbefore := length_withoutLastCommas_le before (',' :: after)
  have hafter := length_withoutLastCommas_le after []
  rw [withoutLastCommas_append, withoutLastCommas, List.append_nil, List.append_nil,
    if_pos ⟨rfl, hcloses⟩, List.length_append, List.length_append, List.length_cons] at hlength
  omega

private theorem holdsLastComma_iff {cs : List Char} :
    HoldsLastComma cs ↔ withoutLastCommas cs [] ≠ cs := by
  refine ⟨withoutLastCommas_ne_self, fun h => ?_⟩
  by_contra hnone
  refine h (withoutLastCommas_eq_self fun before rest hcs hcloses => hnone ⟨before, rest, hcs, ?_⟩)
  rwa [List.append_nil] at hcloses

instance : DecidablePred HoldsLastComma := fun _ =>
  decidable_of_iff _ holdsLastComma_iff.symm

/-! ### Lexemes -/

/-- The inside of a string literal. A backslash takes the next character with it, whatever that is,
and a quote needs one. -/
inductive Lexeme.IsInside : List Char → Prop
  | nil : IsInside []
  | char {c : Char} {cs : List Char} (hc : c ≠ '"' ∧ c ≠ '\\') (h : IsInside cs) :
      IsInside (c :: cs)
  | escape (c : Char) {cs : List Char} (h : IsInside cs) : IsInside ('\\' :: c :: cs)

/-- A complete piece of a text with comments. -/
inductive Lexeme where
  | literal (inside : List Char) (h : Lexeme.IsInside inside)
  | lineComment (body : List Char) (h : '\n' ∉ body)
  /-- The first end mark after the opening one is that of the comment. -/
  | blockComment (body : List Char) (h : ¬['*', '/'] <:+: body ++ ['*'])
  | run (body : List Char) (h : ∀ c ∈ body, c ≠ '"' ∧ c ≠ '/')

namespace Lexeme

/-- The characters of a lexeme. -/
def chars : Lexeme → List Char
  | literal inside _ => '"' :: (inside ++ ['"'])
  | lineComment body _ => '/' :: '/' :: body
  | blockComment body _ => '/' :: '*' :: (body ++ ['*', '/'])
  | run body _ => body

def isComment : Lexeme → Bool
  | lineComment _ _ | blockComment _ _ => true
  | _ => false

/-- The text of a row of lexemes. -/
def text (row : List Lexeme) : List Char :=
  row.flatMap chars

/-- Every line comment runs to a line feed or to the end of the text. -/
def LinesEnd : List Lexeme → Prop
  | [] => True
  | lineComment _ _ :: rest => (text rest = [] ∨ ∃ cs, text rest = '\n' :: cs) ∧ LinesEnd rest
  | _ :: rest => LinesEnd rest

/-- A string literal holds a comma that has a closing mark after it. -/
def HidesLastComma : Lexeme → Prop
  | literal inside _ => HoldsLastComma inside
  | _ => False

instance : DecidablePred HidesLastComma
  | literal inside _ => inferInstanceAs (Decidable (HoldsLastComma inside))
  | lineComment _ _ | blockComment _ _ | run _ _ => inferInstanceAs (Decidable False)

/-- The text of a row in which commas outside string literals are dropped if they have a closing
mark after them. -/
def cleaned : List Lexeme → List Char
  | [] => []
  | run body _ :: rest => withoutLastCommas body (text rest) ++ cleaned rest
  | l :: rest => l.chars ++ cleaned rest

@[simp]
theorem text_nil : text [] = [] := rfl

@[simp]
theorem text_cons (l : Lexeme) (rest : List Lexeme) : text (l :: rest) = l.chars ++ text rest := rfl

end Lexeme

open Lexeme (IsInside text LinesEnd cleaned)

/-! ### Comments -/

private theorem closesString_inside {inside : List Char} (h : IsInside inside) (rest : List Char) :
    closesString (inside ++ '"' :: rest) = true := by
  induction h with
  | nil => rfl
  | @char c cs hc _ ih =>
    rw [List.cons_append, closesString.eq_5 _ _ hc.1 (fun _ _ h => absurd h hc.2)
      (fun h => absurd h hc.2)]
    exact ih
  | escape c _ ih =>
    rw [List.cons_append, List.cons_append, closesString]
    exact ih

private theorem dropComments_inside {inside : List Char} (h : IsInside inside) (rest : List Char) :
    dropComments .literal (inside ++ '"' :: rest) = inside ++ '"' :: dropComments .plain rest := by
  induction h with
  | nil => rfl
  | @char c cs hc _ ih =>
    rw [List.cons_append, dropComments.eq_8 _ _ hc.1 fun _ _ h => absurd h hc.2, ih]
    rfl
  | escape c _ ih =>
    rw [List.cons_append, List.cons_append, dropComments, ih]
    rfl

private theorem dropComments_lineComment {body rest : List Char} (h : '\n' ∉ body)
    (hrest : rest = [] ∨ ∃ cs, rest = '\n' :: cs) :
    dropComments .lineComment (body ++ rest) = dropComments .plain rest := by
  induction body with
  | nil =>
    rcases hrest with rfl | ⟨cs, rfl⟩
    · rfl
    · rw [List.nil_append, dropComments, dropComments]
      · decide
      · exact fun _ h => absurd h (by decide)
      · exact fun _ h => absurd h (by decide)
  | cons c body ih =>
    have hc : c ≠ '\n' := List.ne_of_not_mem_cons h ∘ Eq.symm
    have hbody : '\n' ∉ body := List.not_mem_of_not_mem_cons h
    rw [List.cons_append, dropComments.eq_10 _ _ hc]
    exact ih hbody

/-- A comment whose first end mark is still to come: the character at hand does not begin it. -/
private theorem not_endMark_of_cons {c : Char} {body : List Char}
    (h : ¬['*', '/'] <:+: c :: body ++ ['*']) (rest tail : List Char) (hc : c = '*')
    (htail : body ++ '*' :: '/' :: rest = '/' :: tail) : False := by
  cases body with
  | nil => exact absurd (List.cons.inj htail).1 (by decide)
  | cons d body =>
    obtain rfl := (List.cons.inj htail).1
    subst hc
    exact h ⟨[], body ++ ['*'], rfl⟩

private theorem closesBlock_of_no_mark {body : List Char} (h : ¬['*', '/'] <:+: body ++ ['*'])
    (rest : List Char) : closesBlock (body ++ '*' :: '/' :: rest) = true := by
  induction body with
  | nil => rfl
  | cons c body ih =>
    rw [List.cons_append, closesBlock.eq_3 _ _ (not_endMark_of_cons h rest)]
    exact ih fun hbody => h (hbody.trans (List.suffix_cons c _).isInfix)

private theorem dropComments_blockComment {body : List Char} (h : ¬['*', '/'] <:+: body ++ ['*'])
    (rest : List Char) :
    dropComments .blockComment (body ++ '*' :: '/' :: rest) = dropComments .plain rest := by
  induction body with
  | nil => rfl
  | cons c body ih =>
    rw [List.cons_append, dropComments.eq_12 _ _ (not_endMark_of_cons h rest)]
    exact ih fun hbody => h (hbody.trans (List.suffix_cons c _).isInfix)

private theorem dropComments_run {body : List Char} (h : ∀ c ∈ body, c ≠ '"' ∧ c ≠ '/')
    (rest : List Char) :
    dropComments .plain (body ++ rest) = body ++ dropComments .plain rest := by
  induction body with
  | nil => rfl
  | cons c body ih =>
    obtain ⟨⟨hquote, hslash⟩, hbody⟩ := List.forall_mem_cons.mp h
    rw [List.cons_append, dropComments.eq_5 _ _ hquote (fun _ h => absurd h hslash)
      (fun _ h => absurd h hslash), ih hbody]
    rfl

/-- **The first pass** deletes the comments of a row and keeps the other lexemes. -/
theorem dropComments_row {row : List Lexeme} (h : LinesEnd row) :
    dropComments .plain (text row) = text (row.filter fun l => !l.isComment) := by
  induction row with
  | nil => rfl
  | cons l rest ih =>
    cases l with
    | literal inside hinside =>
      have hquotes : (Lexeme.literal inside hinside).chars ++ text rest =
          '"' :: (inside ++ '"' :: text rest) := by
        simp [Lexeme.chars]
      rw [Lexeme.text_cons, hquotes, dropComments, if_pos (closesString_inside hinside _),
        dropComments_inside hinside, ih h]
      simp [Lexeme.isComment, Lexeme.chars]
    | lineComment body hbody =>
      obtain ⟨hline, hrest⟩ := h
      rw [Lexeme.text_cons, Lexeme.chars, List.cons_append, List.cons_append, dropComments,
        dropComments_lineComment hbody hline, ih hrest]
      rfl
    | blockComment body hbody =>
      have hmarks : (Lexeme.blockComment body hbody).chars ++ text rest =
          '/' :: '*' :: (body ++ '*' :: '/' :: text rest) := by
        simp [Lexeme.chars]
      rw [Lexeme.text_cons, hmarks, dropComments, if_pos (closesBlock_of_no_mark hbody _),
        dropComments_blockComment hbody, ih h]
      rfl
    | run body hbody =>
      rw [Lexeme.text_cons, Lexeme.chars, dropComments_run hbody, ih h]
      rfl

/-! ### Stripping -/

/-- **Stripping** a row of lexemes deletes its comments, and then the commas that have a closing
mark after them, in string literals or not. -/
theorem stripComments_row {row : List Lexeme} (h : LinesEnd row) :
    stripComments (String.ofList (text row)) =
      String.ofList (withoutLastCommas (text (row.filter fun l => !l.isComment)) []) := by
  rw [stripComments, String.toList_ofList, dropComments_row h, dropLastCommas_eq]

theorem Closes.append {cs : List Char} (h : Closes cs) (after : List Char) :
    Closes (cs ++ after) := by
  rw [Closes, nextMark?] at h ⊢
  rw [List.find?_append]
  rcases h with h | h
  · exact .inl (by rw [h]; rfl)
  · exact .inr (by rw [h]; rfl)

/-- A quote is no blank, so nothing closes beyond it. -/
private theorem closes_append_quote_iff {rest : List Char} (cs : List Char) :
    Closes (rest ++ '"' :: cs) ↔ Closes rest := by
  refine ⟨fun h => ?_, fun h => h.append _⟩
  have hnext : nextMark? (rest ++ '"' :: cs) = (nextMark? rest).or (some '"') := by
    rw [nextMark?, nextMark?, List.find?_append]
    rfl
  rw [Closes, hnext] at h
  cases hmark : nextMark? rest with
  | none =>
    rw [hmark] at h
    exact absurd h (by decide)
  | some c =>
    rw [hmark] at h
    rw [Closes, hmark]
    exact h

/-- What closes beyond the end of a literal makes no difference inside it. -/
private theorem withoutLastCommas_before_quote (inside after : List Char) :
    withoutLastCommas inside ('"' :: after) = withoutLastCommas inside [] := by
  induction inside with
  | nil => rfl
  | cons c inside ih =>
    simp only [withoutLastCommas, closes_append_quote_iff, List.append_nil, ih]

theorem withoutLastCommas_literal (inside after : List Char) :
    withoutLastCommas ('"' :: (inside ++ ['"'])) after =
      '"' :: (withoutLastCommas inside [] ++ ['"']) := by
  rw [withoutLastCommas, if_neg (by rintro ⟨h, -⟩; exact absurd h (by decide)),
    withoutLastCommas_append, List.singleton_append, withoutLastCommas_before_quote,
    withoutLastCommas, if_neg (by rintro ⟨h, -⟩; exact absurd h (by decide)), withoutLastCommas]

/-- A literal without such a comma stays as it is. -/
theorem withoutLastCommas_inside {inside : List Char} (h : ¬HoldsLastComma inside) :
    withoutLastCommas inside [] = inside :=
  not_not.mp fun hne => h (holdsLastComma_iff.mpr hne)

private theorem withoutLastCommas_row {row : List Lexeme}
    (hcomments : ∀ l ∈ row, l.isComment = false)
    (h : ∀ l ∈ row, ¬l.HidesLastComma) : withoutLastCommas (text row) [] = cleaned row := by
  induction row with
  | nil => rfl
  | cons l rest ih =>
    obtain ⟨hl, hrest⟩ := List.forall_mem_cons.mp h
    obtain ⟨hcomment, hcomments⟩ := List.forall_mem_cons.mp hcomments
    rw [Lexeme.text_cons, withoutLastCommas_append, List.append_nil, ih hcomments hrest]
    cases l with
    | literal inside _ =>
      rw [Lexeme.chars, withoutLastCommas_literal, withoutLastCommas_inside hl]
      rfl
    | run body _ => rfl
    | lineComment body _ => cases hcomment
    | blockComment body _ => cases hcomment

/-- **A text with comments is stripped** of its comments and then of the commas outside string
literals that have a closing mark after them, and of nothing else, if no string literal holds such a
comma. -/
theorem stripComments_text {row : List Lexeme} (hlines : LinesEnd row)
    (hliterals : ∀ l ∈ row, ¬l.HidesLastComma) :
    stripComments (String.ofList (text row)) =
      String.ofList (cleaned (row.filter fun l => !l.isComment)) := by
  rw [stripComments_row hlines]
  congr 1
  refine withoutLastCommas_row (fun l hl => ?_) fun l hl => hliterals l (List.mem_of_mem_filter hl)
  simpa using (List.mem_filter.mp hl).2

/-- A list of two numbers under a name with a comment mark and a quote in it, with a comma after the
last number, before comments of both kinds, and another after the list. -/
def commentedRow : List Lexeme :=
  [.run "\x7b".toList (List.all_iff_forall_prop.mp (by decide)),
    .literal ['/', '*', '\\', '"']
      (.char (by decide) (.char (by decide) (.escape '"' .nil))),
    .run ": [1, 2, ".toList (List.all_iff_forall_prop.mp (by decide)),
    .lineComment " two".toList (by decide),
    .run "\n ".toList (List.all_iff_forall_prop.mp (by decide)),
    .blockComment " , ".toList (by decide),
    .run " ], \x7d".toList (List.all_iff_forall_prop.mp (by decide))]

theorem stripComments_text_commented :
    LinesEnd commentedRow ∧ (∀ l ∈ commentedRow, ¬l.HidesLastComma) ∧
      stripComments "\x7b\"/*\\\"\": [1, 2, // two\n /* , */ ], \x7d" =
        "\x7b\"/*\\\"\": [1, 2 \n  ] \x7d" := by
  have hlines : LinesEnd commentedRow := ⟨.inr ⟨_, rfl⟩, trivial⟩
  have hliterals : ∀ l ∈ commentedRow, ¬l.HidesLastComma := by
    decide
  have htext : String.ofList (text commentedRow) =
      "\x7b\"/*\\\"\": [1, 2, // two\n /* , */ ], \x7d" := by decide
  have hcleaned : String.ofList (cleaned (commentedRow.filter fun l => !l.isComment)) =
      "\x7b\"/*\\\"\": [1, 2 \n  ] \x7d" := by decide
  have hstrip := stripComments_text hlines hliterals
  rw [htext, hcleaned] at hstrip
  exact ⟨hlines, hliterals, hstrip⟩

end Json

end ApiOutline
