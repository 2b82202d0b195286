import ApiOutline.Text.Basic
import ApiOutline.Text.Symbol

/-!
# Wildcards

A wildcard pattern matches a whole text: `*` stands for any run of symbols, slashes too, `?` for
any one symbol, and a bracket for one symbol of a set. A set lists symbols and ranges. A `]` right
at the beginning of a set belongs to it, and a bracket that is not closed stands for itself. A range
that runs backwards holds nothing: its two ends are struck out of the set. What is left is turned
round by a leading `!`, and a range that this `!` was to begin is no range: its hyphen belongs to
the set.
-/

namespace ApiOutline

namespace Wildcard

/-- The symbols that a bracket stands for. -/
structure SymbolSet where
  negated : Bool
  singles : List Symbol
  ranges : List (Symbol × Symbol)
  deriving DecidableEq

/-- What one part of a pattern stands for. -/
inductive Token where
  | anyRun
  | anyOne
  | literal (a : Symbol)
  | oneOf (set : SymbolSet)
  | noneAtAll
  deriving DecidableEq

/-- Whether a symbol belongs to a set. -/
def SymbolSet.holds (set : SymbolSet) (a : Symbol) : Bool :=
  set.negated != (set.singles.contains a || set.ranges.any fun (low, high) =>
    decide (low.code ≤ a.code ∧ a.code ≤ high.code))

/-- Whether a token that stands for one symbol stands for this one. -/
def Token.accepts : Token → Symbol → Bool
  | .anyRun, _ => false
  | .anyOne, _ => true
  | .literal l, a => l == a
  | .oneOf set, a => set.holds a
  | .noneAtAll, _ => false

/-! ### Matching

Tokens are matched from the end of the text to its beginning. A row says for every tail of the
tokens whether it stands for the symbols seen so far, so no way of matching is tried twice. -/

/-- For every tail of the tokens, whether it stands for no symbols. -/
def emptyRow : List Token → List Bool
  | [] => [true]
  | t :: ts =>
    let rest := emptyRow ts
    (decide (t = .anyRun) && rest.headD false) :: rest

/-- The row for `a` and the symbols after it, from the row for those. -/
def stepRow (a : Symbol) : List Token → List Bool → List Bool
  | [], _ => [false]
  | t :: ts, old =>
    let rest := stepRow a ts old.tail
    let here :=
      if t = .anyRun then rest.headD false || old.headD false
      else t.accepts a && old.tail.headD false
    here :: rest

/-- For every tail of the tokens, whether it stands for the given symbols. -/
def row (ts : List Token) (as : List Symbol) : List Bool :=
  as.foldr (fun a old => stepRow a ts old) (emptyRow ts)

/-- Whether the tokens stand for exactly the given symbols. -/
def accepts (ts : List Token) (as : List Symbol) : Bool :=
  (row ts as).headD false

theorem tail_row_cons (t : Token) (ts : List Token) (as : List Symbol) :
    (row (t :: ts) as).tail = row ts as := by
  induction as with
  | nil => simp [row, emptyRow]
  | cons a as ih =>
    have step : row (t :: ts) (a :: as) = stepRow a (t :: ts) (row (t :: ts) as) := rfl
    rw [step, stepRow, List.tail_cons, ih]
    rfl

/-- No tokens stand for no symbols. -/
theorem accepts_nil (as : List Symbol) : accepts [] as = as.isEmpty := by
  cases as <;> rfl

/-- No symbols are what a run stands for, and nothing else alone does. -/
theorem accepts_cons_nil (t : Token) (ts : List Token) :
    accepts (t :: ts) [] = (decide (t = .anyRun) && accepts ts []) := by
  simp [accepts, row, emptyRow]

/-- A run stands for nothing, or for one symbol more than it can also stand for. -/
theorem accepts_anyRun_cons (ts : List Token) (a : Symbol) (as : List Symbol) :
    accepts (.anyRun :: ts) (a :: as) = (accepts ts (a :: as) || accepts (.anyRun :: ts) as) := by
  have step : row (.anyRun :: ts) (a :: as) = stepRow a (.anyRun :: ts) (row (.anyRun :: ts) as) :=
    rfl
  rw [accepts, step, stepRow]
  simp only [tail_row_cons, if_true, List.headD_cons]
  rfl

/-- A token for one symbol takes the first one. -/
theorem accepts_cons_cons {t : Token} (h : t ≠ .anyRun) (ts : List Token) (a : Symbol)
    (as : List Symbol) : accepts (t :: ts) (a :: as) = (t.accepts a && accepts ts as) := by
  have step : row (t :: ts) (a :: as) = stepRow a (t :: ts) (row (t :: ts) as) := rfl
  rw [accepts, step, stepRow]
  simp only [tail_row_cons, h, if_false, List.headD_cons]
  rfl

/-! ### Sets -/

/-- The inside of a bracket that has just been opened, if it is closed further on. -/
def bracketInside (as : List Symbol) : Option (List Symbol) :=
  let mark := as.takeWhile (· == .char '!') |>.take 1
  let body := as.drop mark.length
  let first := body.takeWhile (· == .char ']') |>.take 1
  let rest := body.drop first.length
  if rest.contains (.char ']') then some (mark ++ first ++ rest.takeWhile (· != .char ']'))
  else none

/-- The pieces of a set between the hyphens that make ranges. A hyphen makes a range only after
`keep` symbols, and after two more for each following one. -/
def pieces : Nat → List Symbol → List (List Symbol)
  | _, [] => [[]]
  | 0, .char '-' :: as => [] :: pieces 2 as
  | keep, a :: as =>
    match pieces (keep - 1) as with
    | first :: rest => (a :: first) :: rest
    | [] => [[a]]

/-- A hyphen at the very end stands for itself. -/
def restoreHyphen : List (List Symbol) → List (List Symbol)
  | [piece, []] => [piece ++ [.char '-']]
  | piece :: rest => piece :: restoreHyphen rest
  | [] => []

/-- Strikes out the ends of the ranges that run backwards, from the last range to the first. -/
def dropBackward : List (List Symbol) → List (List Symbol)
  | [] => []
  | piece :: rest =>
    match dropBackward rest with
    | [] => [piece]
    | next :: others =>
      match piece.getLast?, next.head? with
      | some low, some high =>
        if high.code < low.code then (piece.dropLast ++ next.tail) :: others
        else piece :: next :: others
      | _, _ => piece :: next :: others

/-- The ranges between pieces that follow one another. -/
def rangesOf : List (List Symbol) → List (Symbol × Symbol)
  | piece :: next :: rest =>
    match piece.getLast?, next.head? with
    | some low, some high => (low, high) :: rangesOf (next :: rest)
    | _, _ => rangesOf (next :: rest)
  | _ => []

/-- The hyphen between an empty first piece and the next one, which makes no range. -/
def looseHyphen : List (List Symbol) → List Symbol
  | [] :: _ :: _ => [.char '-']
  | _ => []

/-- The set of what the given pieces hold, turned round or not. -/
def SymbolSet.ofPieces (negated : Bool) (parts : List (List Symbol)) : SymbolSet :=
  ⟨negated, looseHyphen parts ++ parts.flatten, rangesOf parts⟩

/-- What a bracket with the given inside stands for. -/
def setToken (inside : List Symbol) : Token :=
  let keep := if inside.head? = some (.char '!') then 2 else 1
  match dropBackward (restoreHyphen (pieces keep inside)) with
  | [[]] => .noneAtAll
  | [[.char '!']] => .anyOne
  | (.char '!' :: first) :: rest => .oneOf (.ofPieces true (first :: rest))
  | parts => .oneOf (.ofPieces false parts)

/-! ### Patterns -/

/-- The tokens of a pattern; `skip` is how many symbols of a bracket are still to be passed. -/
def tokensFrom : Nat → List Symbol → List Token
  | _, [] => []
  | skip + 1, _ :: as => tokensFrom skip as
  | 0, .char '*' :: as => .anyRun :: tokensFrom 0 as
  | 0, .char '?' :: as => .anyOne :: tokensFrom 0 as
  | 0, .char '[' :: as =>
    match bracketInside as with
    | some inside => setToken inside :: tokensFrom (inside.length + 1) as
    | none => .literal (.char '[') :: tokensFrom 0 as
  | 0, a :: as => .literal a :: tokensFrom 0 as

/-- Runs of any symbols next to one another are one run. -/
def mergeRuns : List Token → List Token
  | .anyRun :: .anyRun :: ts => mergeRuns (.anyRun :: ts)
  | t :: ts => t :: mergeRuns ts
  | [] => []

/-- The tokens of a pattern. -/
def tokens (pattern : String) : List Token :=
  mergeRuns (tokensFrom 0 (Text.symbols pattern))

/-- Whether a pattern matches the whole of a text. -/
def isMatch (pattern text : String) : Bool :=
  accepts (tokens pattern) (Text.symbols text)

/-- Whether a text holds a character that a pattern would not take literally. -/
def hasMark (text : String) : Bool :=
  text.toList.any fun c => c == '*' || c == '?' || c == '['

end Wildcard

end ApiOutline
