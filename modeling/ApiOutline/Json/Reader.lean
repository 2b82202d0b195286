import ApiOutline.Json.Basic
import ApiOutline.Text.Symbol

/-!
# Reading JSON

The reader accepts one JSON value between blanks, and beside the standard's numbers the words
`NaN`, `Infinity` and `-Infinity`. When a name comes twice in an object the later value wins.
A refusal says what was expected and at which symbol of the text, which is also given as a line
and a column. The escape of half a surrogate pair without its other half reads as a lone surrogate.
Arrays and objects may be nested only so deep.

Every function works on the characters that are left; where a refusal happened is known from how
many were left then.
-/

namespace ApiOutline

namespace Json

/-- What was wrong with a text. -/
inductive Problem where
  | value
  | fieldName
  | colon
  | comma
  | extraData
  | controlCharacter
  | unterminatedString
  | escape
  | unicodeEscape
  | byteOrderMark
  deriving DecidableEq

/-- The words for a problem. -/
def Problem.text : Problem → String
  | .value => "Expecting value"
  | .fieldName => "Expecting property name enclosed in double quotes"
  | .colon => "Expecting ':' delimiter"
  | .comma => "Expecting ',' delimiter"
  | .extraData => "Extra data"
  | .controlCharacter => "Invalid control character at"
  | .unterminatedString => "Unterminated string starting at"
  | .escape => "Invalid \\escape"
  | .unicodeEscape => "Invalid \\uXXXX escape"
  | .byteOrderMark => "Unexpected UTF-8 BOM (decode using utf-8-sig)"

/-- The two kinds of value that hold others. -/
inductive Container where
  | array
  | object
  deriving DecidableEq

/-- The word for a kind of container. -/
def Container.text : Container → String
  | .array => "array"
  | .object => "object"

/-- Why reading stopped before `left`, the characters from that place on. -/
inductive Stop where
  | malformed (problem : Problem) (left : List Char)
  | tooManyDigits (count : Nat)
  | tooDeep (container : Container)

/-- Why a text is not read. Lines and columns count from one, offsets from zero. -/
inductive Fault where
  | malformed (problem : Problem) (offset line column : Nat)
  | tooManyDigits (count : Nat)
  | tooDeep (container : Container)
  deriving DecidableEq

/-- The wording of a refusal. -/
def Fault.message : Fault → String
  | .malformed problem offset line column =>
    problem.text ++ ": line " ++ Text.decimal line ++ " column " ++ Text.decimal column ++ " (char "
      ++ Text.decimal offset ++ ")"
  | .tooManyDigits count =>
    "Exceeds the limit (4300 digits) for integer string conversion: value has "
      ++ Text.decimal count
      ++ " digits; use sys.set_int_max_str_digits() to increase the limit"
  | .tooDeep container =>
    "maximum recursion depth exceeded while decoding a JSON " ++ container.text
      ++ " from a unicode string"

/-- Whether a text is refused for its depth alone. -/
def Fault.isTooDeep : Fault → Bool
  | .tooDeep _ => true
  | _ => false

/-- Where in `text` the given number of characters is left. -/
def Stop.locate (text : List Char) : Stop → Fault
  | .malformed problem left =>
    let before := Text.symbolsOf (text.take (text.length - left.length))
    .malformed problem before.length (before.count (.char '\n') + 1)
      ((before.reverse.takeWhile (· ≠ .char '\n')).length + 1)
  | .tooManyDigits count => .tooManyDigits count
  | .tooDeep container => .tooDeep container

/-- Whether a character may stand between the marks of a JSON text. -/
def isSpace (c : Char) : Bool :=
  c == ' ' || c == '\t' || c == '\n' || c == '\r'

/-- The characters from the first one that is no blank. -/
def skipSpace (cs : List Char) : List Char :=
  cs.dropWhile isSpace

/-! ### Strings -/

/-- The value of a hexadecimal digit. -/
def hexDigit? (c : Char) : Option Nat :=
  if '0' ≤ c ∧ c ≤ '9' then some (c.toNat - '0'.toNat)
  else if 'a' ≤ c ∧ c ≤ 'f' then some (c.toNat - 'a'.toNat + 10)
  else if 'A' ≤ c ∧ c ≤ 'F' then some (c.toNat - 'A'.toNat + 10)
  else none

/-- The number that four hexadecimal digits write. -/
def hexFour? (a b c d : Char) : Option Nat := do
  let a ← hexDigit? a
  let b ← hexDigit? b
  let c ← hexDigit? c
  let d ← hexDigit? d
  return ((a * 16 + b) * 16 + c) * 16 + d

/-- Whether a code unit is the first half of a pair. -/
def isHighHalf (n : Nat) : Bool :=
  decide (0xD800 ≤ n ∧ n < 0xDC00)

/-- Whether a code unit is the second half of a pair. -/
def isLowHalf (n : Nat) : Bool :=
  decide (0xDC00 ≤ n ∧ n < 0xE000)

/-- The code point that a pair of code units writes. -/
def pairCode (high low : Nat) : Nat :=
  0x10000 + (high - 0xD800) * 0x400 + (low - 0xDC00)

/-- The character that a letter after a backslash stands for. -/
def escaped? : Char → Option Char
  | '"' => some '"'
  | '\\' => some '\\'
  | '/' => some '/'
  | 'b' => some '\x08'
  | 'f' => some '\x0c'
  | 'n' => some '\n'
  | 'r' => some '\r'
  | 't' => some '\t'
  | _ => none

/-- Puts characters before what the rest of a string reads as. -/
def precededBy (head : List Char) :
    Except Stop (List Char × List Char) → Except Stop (List Char × List Char) :=
  Except.map fun (cs, left) => (head ++ cs, left)

/-- The second half that the escape at the head of `cs` gives to the code unit `n`, if `n` is a
first half and such an escape follows. An escape needs a character after it, if only the closing
quote, and one that is not written with digits is refused. -/
def secondHalf? (n : Nat) : List Char → Except Stop (Option Nat)
  | '\\' :: 'u' :: w :: x :: y :: z :: after =>
    if !isHighHalf n || after.isEmpty then .ok none
    else
      match hexFour? w x y z with
      | none => .error (.malformed .unicodeEscape ('u' :: w :: x :: y :: z :: after))
      | some m => .ok (if isLowHalf m then some m else none)
  | _ => .ok none

/-- Reads a string whose opening quote, at the head of `opening`, has been passed. -/
def readString (opening : List Char) : List Char → Except Stop (List Char × List Char)
  | [] => .error (.malformed .unterminatedString opening)
  | '"' :: left => .ok ([], left)
  | '\\' :: left =>
    match left with
    | [] => .error (.malformed .unterminatedString opening)
    | 'u' :: digits =>
      match digits with
      | a :: b :: c :: d :: after =>
        if after.isEmpty then .error (.malformed .unicodeEscape left)
        else
          match hexFour? a b c d with
          | none => .error (.malformed .unicodeEscape left)
          | some n =>
            match secondHalf? n after with
            | .error stop => .error stop
            | .ok none => precededBy (Symbol.ofCode n).spelling (readString opening after)
            | .ok (some m) =>
              match after with
              | _ :: _ :: _ :: _ :: _ :: _ :: rest =>
                precededBy (Symbol.ofCode (pairCode n m)).spelling (readString opening rest)
              | _ => .error (.malformed .unicodeEscape left)
      | _ => .error (.malformed .unicodeEscape left)
    | e :: rest =>
      match escaped? e with
      | some c => precededBy [c] (readString opening rest)
      | none => .error (.malformed .escape ('\\' :: left))
  | c :: left =>
    if c.toNat < 0x20 then .error (.malformed .controlCharacter (c :: left))
    else precededBy [c] (readString opening left)

/-! ### Numbers -/

/-- The number that a run of decimal digits writes. -/
def digitsValue (digits : List Char) : Nat :=
  digits.foldl (fun n c => n * 10 + (c.toNat - '0'.toNat)) 0

/-- The digits after a point, if there is a point with a digit after it. -/
def fractionDigits : List Char → List Char × List Char
  | '.' :: cs =>
    let digits := cs.takeWhile Char.isDigit
    if digits.isEmpty then ([], '.' :: cs) else (digits, cs.dropWhile Char.isDigit)
  | cs => ([], cs)

/-- The exponent after a mark, if there is a mark with a digit after it and its sign. -/
def exponentPart : List Char → Option Int × List Char
  | [] => (none, [])
  | e :: cs =>
    if e == 'e' || e == 'E' then
      let (negative, body) := match cs with
        | '-' :: rest => (true, rest)
        | '+' :: rest => (false, rest)
        | rest => (false, rest)
      let digits := body.takeWhile Char.isDigit
      if digits.isEmpty then (none, e :: cs)
      else
        let n : Int := digitsValue digits
        (some (if negative then -n else n), body.dropWhile Char.isDigit)
    else (none, e :: cs)

/-- The whole digits at the head: one zero, or a run that begins with another digit. -/
def wholeDigits : List Char → List Char × List Char
  | '0' :: cs => (['0'], cs)
  | cs => (cs.takeWhile Char.isDigit, cs.dropWhile Char.isDigit)

/-- Integers of more digits than this are refused. -/
def maxDigits : Nat := 4300

/-- Reads the number at the head of `cs`. -/
def readNumber (cs : List Char) : Except Stop (Json × List Char) :=
  let (negative, body) := match cs with
    | '-' :: rest => (true, rest)
    | rest => (false, rest)
  let (whole, afterWhole) := wholeDigits body
  if whole.isEmpty then .error (.malformed .value cs)
  else
    let (fraction, afterFraction) := fractionDigits afterWhole
    let (exponent, left) := exponentPart afterFraction
    if fraction.isEmpty && exponent.isNone then
      if maxDigits < whole.length then .error (.tooManyDigits whole.length)
      else
        let n : Int := digitsValue whole
        .ok (.int (if negative then -n else n), left)
    else
      .ok (.float (.ofDecimal negative (digitsValue (whole ++ fraction))
        (exponent.getD 0 - fraction.length)), left)

/-- Reads the word or the number at the head of `cs`. -/
def readScalar (cs : List Char) : Except Stop (Json × List Char) :=
  let word (text : String) (value : Json) : Option (Json × List Char) :=
    if text.toList.isPrefixOf cs then some (value, cs.drop text.length) else none
  match word "null" .null <|> word "true" (.bool true) <|> word "false" (.bool false)
      <|> word "NaN" (.float .nan) <|> word "Infinity" (.float (.infinite false))
      <|> word "-Infinity" (.float (.infinite true)) with
  | some step => .ok step
  | none => readNumber cs

/-! ### Values -/

mutual

/-- Reads the value at the head of `cs`; `fuel` bounds how many readers are nested, and `room` how
many containers. -/
def readValue : Nat → Nat → List Char → Except Stop (Json × List Char)
  | 0, _, cs => .error (.malformed .value cs)
  | fuel + 1, room, cs =>
    match cs with
    | '"' :: left => (readString cs left).map fun (s, left) => (.str (String.ofList s), left)
    | '[' :: left =>
      if room = 0 then .error (.tooDeep .array)
      else
        match skipSpace left with
        | ']' :: left => .ok (.arr [], left)
        | left => (readItems fuel (room - 1) left).map fun (items, left) => (.arr items, left)
    | '\x7b' :: left =>
      if room = 0 then .error (.tooDeep .object)
      else
        match skipSpace left with
        | '\x7d' :: left => .ok (.obj [], left)
        | left =>
          (readFields fuel (room - 1) left).map fun (fields, left) =>
            (.obj (Fields.putAll [] fields), left)
    | cs => readScalar cs

/-- Reads the items of an array up to its closing bracket; there is at least one. -/
def readItems : Nat → Nat → List Char → Except Stop (List Json × List Char)
  | 0, _, cs => .error (.malformed .value cs)
  | fuel + 1, room, cs => do
    let (item, left) ← readValue fuel room cs
    match skipSpace left with
    | ']' :: left => return ([item], left)
    | ',' :: left =>
      let (items, left) ← readItems fuel room (skipSpace left)
      return (item :: items, left)
    | left => throw (.malformed .comma left)

/-- Reads the fields of an object up to its closing brace; there is at least one. -/
def readFields : Nat → Nat → List Char → Except Stop (Fields × List Char)
  | 0, _, cs => .error (.malformed .value cs)
  | fuel + 1, room, cs =>
    match cs with
    | '"' :: left => do
      let (name, left) ← readString cs left
      match skipSpace left with
      | ':' :: left =>
        let (value, left) ← readValue fuel room (skipSpace left)
        match skipSpace left with
        | '\x7d' :: left => return ([(String.ofList name, value)], left)
        | ',' :: left =>
          let (fields, left) ← readFields fuel room (skipSpace left)
          return ((String.ofList name, value) :: fields, left)
        | left => throw (.malformed .comma left)
      | left => throw (.malformed .colon left)
    | cs => .error (.malformed .fieldName cs)

end

/-- More nested readers than any text of this length has: each two of them pass a character. -/
def readFuel (cs : List Char) : Nat :=
  2 * cs.length + 2

/-- Reads one value and the blanks around it. -/
def readChars (room : Nat) (cs : List Char) : Except Stop Json :=
  if cs.head? = some (Char.ofNat 0xFEFF) then .error (.malformed .byteOrderMark cs)
  else do
    let (value, left) ← readValue (readFuel cs) room (skipSpace cs)
    match skipSpace left with
    | [] => return value
    | left => throw (.malformed .extraData left)

/-- The value that a text writes, with containers nested at most `room` deep. -/
def readWithin (room : Nat) (text : String) : Except Fault Json :=
  match readChars room text.toList with
  | .ok value => .ok value
  | .error stop => .error (stop.locate text.toList)

end Json

end ApiOutline
