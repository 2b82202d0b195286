import ApiOutline.Text.Basic
import ApiOutline.Text.Printable
import ApiOutline.Text.Symbol

/-!
# Quoted text

A text between quotes on one line, as error messages and the texts of lists show it. The single
quote is the mark, unless the text holds a single quote and no double quote. The mark, the
backslash, every character that is not printable and every lone surrogate are escaped. Bytes are
quoted in the same way, with every byte that is no ASCII character escaped.
-/

namespace ApiOutline

namespace Text

/-- The quote to put around `cs`. -/
def quoteMark (cs : List Char) : Char :=
  if cs.contains '\'' && !cs.contains '"' then '"' else '\''

/-- The escape of a symbol that is not printable, by its number: two, four or eight hexadecimal
digits, as few as hold it. -/
def escapeCode (n : Nat) : String :=
  if n < 0x100 then "\\x" ++ hex 2 n
  else if n < 0x10000 then "\\u" ++ hex 4 n
  else "\\U" ++ hex 8 n

/-- What stands for one character between two copies of `mark`. -/
def quotedChar (mark c : Char) : String :=
  if c == mark || c == '\\' then String.ofList ['\\', c]
  else if c == '\n' then "\\n"
  else if c == '\r' then "\\r"
  else if c == '\t' then "\\t"
  else if isPrintable c then String.singleton c
  else escapeCode c.toNat

/-- What stands for one symbol between two copies of `mark`. -/
def quotedSymbol (mark : Char) : Symbol → String
  | .char c => quotedChar mark c
  | a => escapeCode a.code

/-- `s` between quotes. -/
def quoted (s : String) : String :=
  let mark := quoteMark s.toList
  String.singleton mark ++ String.join ((symbols s).map (quotedSymbol mark))
    ++ String.singleton mark

/-- What stands for one byte between two copies of `mark`. -/
def quotedByte (mark : Char) (b : UInt8) : String :=
  if b < 0x80 then quotedChar mark (Char.ofNat b.toNat) else escapeCode b.toNat

/-- Bytes between quotes. -/
def quotedBytes (bytes : List UInt8) : String :=
  let mark := quoteMark (bytes.map fun b => Char.ofNat b.toNat)
  "b" ++ String.singleton mark ++ String.join (bytes.map (quotedByte mark))
    ++ String.singleton mark

end Text

end ApiOutline
