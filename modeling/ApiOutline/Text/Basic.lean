/-!
# Text on characters

The operations on text that the library needs, each defined on the list of characters of a
string, so that a statement about one is a statement about lists. Nothing here depends on how a
string is stored, and positions are counted in characters.
-/

namespace ApiOutline

namespace Text

/-- Whether `s` begins with the characters of `start`. -/
def startsWith (s start : String) : Bool :=
  start.toList.isPrefixOf s.toList

/-- Whether `s` ends with the characters of `ending`. -/
def endsWith (s ending : String) : Bool :=
  ending.toList.isSuffixOf s.toList

/-- The pieces of `s` between the occurrences of `sep`; there is one more piece than occurrences,
so the empty text has one empty piece. -/
def splitOn (sep : Char) (s : String) : List String :=
  (s.toList.splitOn sep).map String.ofList

/-- Whether `part` occurs somewhere in `cs`. -/
def occursIn (part : List Char) : List Char → Bool
  | [] => part.isEmpty
  | c :: cs => part.isPrefixOf (c :: cs) || occursIn part cs

/-- Whether `s` holds the characters of `part` side by side. -/
def contains (s part : String) : Bool :=
  occursIn part.toList s.toList

/-- Deletes the occurrences of `part` from left to right, none of which overlap; `skip` is how
many characters of an occurrence are still to be dropped. -/
def eraseFrom (part : List Char) : Nat → List Char → List Char
  | _, [] => []
  | skip + 1, _ :: cs => eraseFrom part skip cs
  | 0, c :: cs =>
    if part.isPrefixOf (c :: cs) then eraseFrom part (part.length - 1) cs
    else c :: eraseFrom part 0 cs

/-- `s` without the occurrences of `part`, which is not empty. -/
def erase (s part : String) : String :=
  String.ofList (eraseFrom part.toList 0 s.toList)

/-- `cs` without the longest run of characters at its end that satisfy `p`. -/
def dropRight (p : Char → Bool) : List Char → List Char
  | [] => []
  | c :: cs =>
    match dropRight p cs with
    | [] => if p c then [] else [c]
    | kept => c :: kept

/-- `s` without its trailing copies of `c`. -/
def trimEnd (s : String) (c : Char) : String :=
  String.ofList (dropRight (· == c) s.toList)

/-- Cuts `cs` at the last occurrence of `sep`, which belongs to neither part. -/
def cutLast (sep : Char) : List Char → Option (List Char × List Char)
  | [] => none
  | c :: cs =>
    match cutLast sep cs with
    | some (before, after) => some (c :: before, after)
    | none => if c == sep then some ([], cs) else none

/-- Reads every line end, written as `\r\n`, `\r` or `\n`, as `\n`. -/
def unifyLineEnds : List Char → List Char
  | [] => []
  | '\r' :: '\n' :: cs => '\n' :: unifyLineEnds cs
  | '\r' :: cs => '\n' :: unifyLineEnds cs
  | c :: cs => c :: unifyLineEnds cs

/-- Whether a character ends a line of a text: a line feed, a return, a tabulation between lines or
pages, one of the first three information separators, or a separator of Unicode. -/
def endsLine (c : Char) : Bool :=
  [0x0A, 0x0B, 0x0C, 0x0D, 0x1C, 0x1D, 0x1E, 0x85, 0x2028, 0x2029].contains c.toNat

/-- The lines of `cs` without their ends; a return and the line feed after it are one end. The
characters of the line at hand that came before are in `line`, last first. -/
def linesFrom (line : List Char) : List Char → List (List Char)
  | [] => if line.isEmpty then [] else [line.reverse]
  | '\r' :: '\n' :: cs => line.reverse :: linesFrom [] cs
  | c :: cs => if endsLine c then line.reverse :: linesFrom [] cs else linesFrom (c :: line) cs

/-- The lines of `s` without their ends; after the last end there is no further line. -/
def lines (s : String) : List String :=
  (linesFrom [] s.toList).map String.ofList

/-- The decimal digits of `n`, most significant first. -/
def decimal (n : Nat) : String :=
  String.ofList (Nat.toDigits 10 n)

/-- The decimal text of an integer, with a sign only when it is negative. -/
def decimalInt (n : Int) : String :=
  if n < 0 then "-" ++ decimal n.natAbs else decimal n.natAbs

/-- The lower-case hexadecimal digits of `n`, filled up with zeros to `width`. -/
def hex (width n : Nat) : String :=
  let digits := Nat.toDigits 16 n
  String.ofList (List.replicate (width - digits.length) '0' ++ digits)

/-- `s` with the letters `A` to `Z` in lower case; no other character changes. -/
def lowerAscii (s : String) : String :=
  String.ofList (s.toList.map Char.toLower)

/-! ### What the operations keep -/

@[simp]
theorem splitOn_ne_nil (sep : Char) (s : String) : splitOn sep s ≠ [] := by
  simp [splitOn]

@[simp]
theorem eraseFrom_nil (part : List Char) (skip : Nat) : eraseFrom part skip [] = [] := by
  cases skip <;> rfl

/-- Trimming keeps a list whose last character does not satisfy the test. -/
theorem dropRight_append_of_not (p : Char → Bool) (cs : List Char) {c : Char} (h : p c = false) :
    dropRight p (cs ++ [c]) = cs ++ [c] := by
  induction cs with
  | nil => simp [dropRight, h]
  | cons d ds ih =>
    rw [List.cons_append, dropRight, ih]
    cases ds <;> rfl

end Text

end ApiOutline
