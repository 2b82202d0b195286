import ApiOutline.Document.Moment
import ApiOutline.Json.Reader
import ApiOutline.Number.Shortest
import ApiOutline.Text.Quoted

/-!
# Documents

The value of a manifest or of a setting, whatever notation it was written in: beside what JSON has
there are bytes, dates, tuples and sets, and keys need not be texts. A list, tuple or map may stand
inside itself; a document holds a mark then where it comes back.

A document can be shown as a text, unless an integer in it has too many digits. A text shows as it
is, and inside another document as a quoted text.
-/

namespace ApiOutline

/-- What a document is that stands inside itself. -/
inductive Document.Enclosing where
  | list
  | tuple
  | map
  deriving DecidableEq

/-- A value with nested lists and maps. A map keeps its keys and a set its items in order. -/
inductive Document where
  | null
  | bool (b : Bool)
  | int (n : Int)
  | float (x : Double)
  | str (s : String)
  | bytes (bs : List UInt8)
  | moment (m : Moment)
  | list (items : List Document)
  | tuple (items : List Document)
  | set (items : List Document)
  | map (fields : List (Document × Document))
  /-- A document around this place, once more. -/
  | again (e : Document.Enclosing)
  deriving Inhabited

namespace Document

/-- The value under a key that is a text. -/
def get? (fields : List (Document × Document)) (name : String) : Option Document :=
  match fields with
  | [] => none
  | (.str key, value) :: rest => if key = name then some value else get? rest name
  | _ :: rest => get? rest name

/-- Whether a value counts as true: all do but null, false, zero and what is empty. -/
def isTruthy : Document → Bool
  | .null => false
  | .bool b => b
  | .int n => n ≠ 0
  | .float x => !x.isZero
  | .str s => s ≠ ""
  | .bytes bs => !bs.isEmpty
  | .list items | .tuple items | .set items => !items.isEmpty
  | .map fields => !fields.isEmpty
  | .moment _ | .again _ => true

/-! ### Showing -/

/-- The mark of a document that stands inside itself. -/
def Enclosing.mark : Enclosing → String
  | .list => "[...]"
  | .tuple => "(...)"
  | .map => "\x7b...\x7d"

/-- The items of a tuple between parentheses; a comma follows one that is alone. -/
def tupleText : List String → String
  | [item] => "(" ++ item ++ ",)"
  | items => "(" ++ ", ".intercalate items ++ ")"

/-- The items of a set between braces. -/
def setText : List String → String
  | [] => "set()"
  | items => "\x7b" ++ ", ".intercalate items ++ "\x7d"

mutual

/-- The document as it is shown inside another. -/
def inner : Document → String
  | .null => "None"
  | .bool b => if b then "True" else "False"
  | .int n => Text.decimalInt n
  | .float x => x.text
  | .str s => Text.quoted s
  | .bytes bs => Text.quotedBytes bs
  | .moment m => m.call
  | .list items => "[" ++ ", ".intercalate (innerItems items) ++ "]"
  | .tuple items => tupleText (innerItems items)
  | .set items => setText (innerItems items)
  | .map fields => "\x7b" ++ ", ".intercalate (innerFields fields) ++ "\x7d"
  | .again e => e.mark

/-- The items of a list as they are shown. -/
def innerItems : List Document → List String
  | [] => []
  | d :: ds => inner d :: innerItems ds

/-- The keys and values of a map as they are shown. -/
def innerFields : List (Document × Document) → List String
  | [] => []
  | (key, value) :: rest => (inner key ++ ": " ++ inner value) :: innerFields rest

end

/-- The document as it is shown by itself. -/
def shown : Document → String
  | .str s => s
  | .moment m => m.text
  | d => d.inner

mutual

/-- Whether every integer in the document has few enough digits to be shown. -/
def isShort : Document → Bool
  | .int n => decide ((Nat.toDigits 10 n.natAbs).length ≤ Json.maxDigits)
  | .list items | .tuple items | .set items => areShort items
  | .map fields => haveShort fields
  | _ => true

/-- Whether all items are short. -/
def areShort : List Document → Bool
  | [] => true
  | d :: ds => isShort d && areShort ds

/-- Whether all keys and values are short. -/
def haveShort : List (Document × Document) → Bool
  | [] => true
  | (key, value) :: rest => isShort key && isShort value && haveShort rest

end

/-- The text of a document, if it can be shown. -/
def text? (d : Document) : Option String :=
  if d.isShort then some d.shown else none

mutual

/-- The document that a JSON value is. -/
def ofJson : Json → Document
  | .null => .null
  | .bool b => .bool b
  | .int n => .int n
  | .float x => .float x
  | .str s => .str s
  | .arr items => .list (ofItems items)
  | .obj fields => .map (ofFields fields)

/-- The documents that the items of an array are. -/
def ofItems : List Json → List Document
  | [] => []
  | j :: js => ofJson j :: ofItems js

/-- The fields of an object with their names as keys. -/
def ofFields : List (String × Json) → List (Document × Document)
  | [] => []
  | (name, value) :: rest => (.str name, ofJson value) :: ofFields rest

end

end Document

/-- The text of a JSON value. Every integer that was read as JSON can be shown. -/
def Json.text (j : Json) : String :=
  (Document.ofJson j).shown

end ApiOutline
