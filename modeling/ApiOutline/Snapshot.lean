import ApiOutline.Disk.Change
import ApiOutline.Json.Reader

/-!
# Snapshots

A snapshot is a JSON object that describes a disk: each field is a path with the file, folder or
link that stands there. A file is given by its text, or by its bytes in base 64, and may come with
what its text was parsed into. A node of a syntax tree is an array of its kind, the span
of bytes it covers, and, as far as they are not empty, its flags, its field and its children.
-/

namespace ApiOutline

namespace Snapshot

/-! ### Bytes -/

/-- The value of a digit in base 64. -/
def sextet? (c : Char) : Option Nat :=
  if 'A' ≤ c ∧ c ≤ 'Z' then some (c.toNat - 'A'.toNat)
  else if 'a' ≤ c ∧ c ≤ 'z' then some (c.toNat - 'a'.toNat + 26)
  else if '0' ≤ c ∧ c ≤ '9' then some (c.toNat - '0'.toNat + 52)
  else if c = '+' then some 62
  else if c = '/' then some 63
  else none

/-- The bytes that digits in base 64 write. -/
def bytesOf : List Nat → List UInt8
  | a :: b :: c :: d :: rest =>
    UInt8.ofNat (a * 4 + b / 16) :: UInt8.ofNat (b % 16 * 16 + c / 4)
      :: UInt8.ofNat (c % 4 * 64 + d) :: bytesOf rest
  | [a, b, c] => [UInt8.ofNat (a * 4 + b / 16), UInt8.ofNat (b % 16 * 16 + c / 4)]
  | [a, b] => [UInt8.ofNat (a * 4 + b / 16)]
  | _ => []

/-- The bytes of a text in base 64; all but the digits is passed over. -/
def base64 (text : String) : List UInt8 :=
  bytesOf (text.toList.filterMap sextet?)

/-! ### Trees and documents -/

/-- The label of a node; the flags add 1 for a named node and 2 for a missing one. -/
def labelOf (kind : String) (start stop flags : Int) (field : String) : Tree.Label :=
  { kind, field, start := start.toNat, stop := stop.toNat
    named := flags.toNat % 2 = 1, missing := flags.toNat / 2 % 2 = 1 }

mutual

/-- The tree that a JSON value describes. -/
def treeOf : Json → Tree
  | .arr [.str kind, .int start, .int stop] => .node (labelOf kind start stop 0 "") []
  | .arr [.str kind, .int start, .int stop, .int flags] =>
    .node (labelOf kind start stop flags "") []
  | .arr [.str kind, .int start, .int stop, .int flags, .str field] =>
    .node (labelOf kind start stop flags field) []
  | .arr [.str kind, .int start, .int stop, .int flags, .str field, .arr children] =>
    .node (labelOf kind start stop flags field) (treesOf children)
  | _ => default

/-- The trees that some JSON values describe. -/
def treesOf : List Json → List Tree
  | [] => []
  | j :: js => treeOf j :: treesOf js

end

/-- The number that a text shows. -/
def numberOf (text : String) : Double :=
  if text = "inf" then .infinite false
  else if text = "-inf" then .infinite true
  else
    match Json.readWithin 0 text with
    | .ok (.float x) => x
    | _ => .nan

/-- The number that hexadecimal digits write; all but the digits is passed over. -/
def hexOf (text : String) : Nat :=
  (text.toList.filterMap Json.hexDigit?).foldl (fun n digit => n * 16 + digit) 0

mutual

/-- The document that a JSON value describes: a map is given by its pairs, a number with a
fraction and a moment by their texts, bytes in base 64 and a long integer in base 16. -/
def documentOf : Json → Document
  | .null => .null
  | .bool b => .bool b
  | .int n => .int n
  | .float x => .float x
  | .str s => .str s
  | .arr items => .list (documentsOf items)
  | .obj [("map", .arr pairs)] => .map (pairsOf pairs)
  | .obj [("float", .str text)] => .float (numberOf text)
  | .obj [("date", .str text)] => ((Moment.read? text).map Document.moment).getD (.str text)
  | .obj [("hex", .str text)] => .int (hexOf text)
  | .obj [("bytes", .str text)] => .bytes (base64 text)
  | .obj [("tuple", .arr items)] => .tuple (documentsOf items)
  | .obj [("set", .arr items)] => .set (documentsOf items)
  | .obj _ => .null

/-- The documents that some JSON values describe. -/
def documentsOf : List Json → List Document
  | [] => []
  | j :: js => documentOf j :: documentsOf js

/-- The pairs of a map. -/
def pairsOf : List Json → List (Document × Document)
  | [] => []
  | .arr [key, value] :: rest => (documentOf key, documentOf value) :: pairsOf rest
  | _ :: rest => pairsOf rest

end

/-- What reading a manifest gave. -/
def parsedOf : Json → Parsed
  | .obj [("error", .str complaint)] => .error (.unclear complaint)
  | .obj [("invalid", .str complaint)] => .error (.senseless complaint)
  | .obj [("ok", value)] => .ok (documentOf value)
  | _ => .ok .null

/-! ### Items -/

/-- The bytes in a description of a file. -/
def contentsOf (fields : Json.Fields) : List UInt8 :=
  match fields.get? "text", fields.get? "b64" with
  | some (.str text), _ => Utf8.encode text
  | _, some (.str text) => base64 text
  | _, _ => []

/-- The item that the fields of an object describe. -/
def itemOfFields (fields : Json.Fields) : Item :=
  match fields.get? "dir", fields.get? "symlink" with
  | some _, _ => .folder []
  | _, some (.str target) => .link target
  | _, _ => .file {
    bytes := contentsOf fields
    tree := (fields.get? "tree").map treeOf
    document := (fields.get? "yaml").map parsedOf }

/-- The item that a JSON value describes. -/
def itemOf : Json → Item
  | .str text => .file { bytes := Utf8.encode text }
  | .obj fields => itemOfFields fields
  | _ => .file { bytes := [] }

/-- Puts an item at the path `p`, and makes the folders above it. A folder that is there already is
kept, and a file is written over. -/
def place (d : Disk) (p : String) (item : Item) : Disk.Attempt :=
  match item with
  | .folder _ => d.makeFolders p
  | .file file => (d.makeFolders (Path.dirname p)).andThen fun d => d.write p file
  | .link target => (d.makeFolders (Path.dirname p)).andThen fun d => d.makeLink p target

/-- The disk with the described files below the folder `root`, seen from there. What cannot be
placed is left out. -/
def diskOf (limits : Limits) (root : String) (files : Json.Fields) : Disk :=
  let bare := (Disk.mk [] root limits).put (Path.names root) (.folder [])
  files.foldl (fun d (path, item) => (place d (Path.join root path) (itemOf item)).disk) bare

end Snapshot

end ApiOutline
