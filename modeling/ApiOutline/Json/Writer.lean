import ApiOutline.Json.Basic
import ApiOutline.Number.Shortest
import ApiOutline.Text.Symbol

/-!
# Writing JSON

A value is written with one item or field on a line, indented by two blanks for each container
around it; an empty container is written without a line break. A style says whether fields are
sorted by name and whether characters outside printable ASCII are escaped.
-/

namespace ApiOutline

namespace Json

/-- How fields and characters are written. -/
structure Style where
  /-- Fields stand in the order of their names, not in that of the object. -/
  sorted : Bool
  /-- All but the printable ASCII characters are escaped. -/
  ascii : Bool

/-- An escape of four hexadecimal digits. -/
def unitEscape (n : Nat) : String :=
  "\\u" ++ Text.hex 4 n

/-- The escape of two characters that a symbol has, if it has one. -/
def shortEscape? : Symbol → Option String
  | .char '"' => some "\\\""
  | .char '\\' => some "\\\\"
  | .char '\n' => some "\\n"
  | .char '\r' => some "\\r"
  | .char '\t' => some "\\t"
  | .char '\x0c' => some "\\f"
  | .char '\x08' => some "\\b"
  | _ => none

/-- The escapes of a code point: one, or two for the halves of a surrogate pair. -/
def codeEscape (n : Nat) : String :=
  if n < 0x10000 then unitEscape n
  else
    unitEscape (0xD800 + (n - 0x10000) / 0x400) ++ unitEscape (0xDC00 + (n - 0x10000) % 0x400)

/-- What stands for one symbol inside a string. -/
def writeSymbol (style : Style) (a : Symbol) : String :=
  match shortEscape? a with
  | some text => text
  | none =>
    if a.code < 0x20 then unitEscape a.code
    else if !style.ascii || a.code < 0x7F then Text.ofSymbols [a]
    else codeEscape a.code

/-- A string between its quotes. -/
def writeString (style : Style) (s : String) : String :=
  "\"" ++ String.join ((Text.symbols s).map (writeSymbol style)) ++ "\""

/-- The text of a number with a fraction or an exponent. -/
def writeFloat : Double → String
  | .nan => "NaN"
  | .infinite negative => if negative then "-Infinity" else "Infinity"
  | x => x.text

/-- A line break and the indentation inside `depth` containers. -/
def newLine (depth : Nat) : String :=
  "\n" ++ String.join (List.replicate depth "  ")

/-- The lines of a container that is inside `depth` others. -/
def writeBlock (depth : Nat) (opening closing : String) (lines : List String) : String :=
  if lines.isEmpty then opening ++ closing
  else
    opening ++ newLine (depth + 1) ++ ("," ++ newLine (depth + 1)).intercalate lines
      ++ newLine depth ++ closing

mutual

/-- The text of a value inside `depth` containers. -/
def writeAt (style : Style) (depth : Nat) : Json → String
  | .null => "null"
  | .bool b => if b then "true" else "false"
  | .int n => Text.decimalInt n
  | .float x => writeFloat x
  | .str s => writeString style s
  | .arr items => writeBlock depth "[" "]" (writeItems style (depth + 1) items)
  | .obj fields =>
    let written := writeFields style (depth + 1) fields
    let ordered :=
      if style.sorted then written.mergeSort fun a b => Text.precedes a.1 b.1 else written
    writeBlock depth "\x7b" "\x7d"
      (ordered.map fun (name, text) => writeString style name ++ ": " ++ text)

/-- The texts of the items of an array. -/
def writeItems (style : Style) (depth : Nat) : List Json → List String
  | [] => []
  | item :: items => writeAt style depth item :: writeItems style depth items

/-- The names of the fields of an object, each with the text of its value. -/
def writeFields (style : Style) (depth : Nat) : List (String × Json) → List (String × String)
  | [] => []
  | (name, value) :: fields =>
    (name, writeAt style depth value) :: writeFields style depth fields

end

/-- The text of a value. -/
def write (style : Style) (value : Json) : String :=
  writeAt style 0 value

/-! ### How deep containers are nested -/

mutual

/-- How deep containers are nested in a value. -/
def nesting : Json → Nat
  | .arr items => nestingOfItems items + 1
  | .obj fields => nestingOfFields fields + 1
  | _ => 0

/-- How deep containers are nested in items. -/
def nestingOfItems : List Json → Nat
  | [] => 0
  | item :: items => max (nesting item) (nestingOfItems items)

/-- How deep containers are nested in the values of fields. -/
def nestingOfFields : List (String × Json) → Nat
  | [] => 0
  | (_, value) :: fields => max (nesting value) (nestingOfFields fields)

end

end Json

end ApiOutline
