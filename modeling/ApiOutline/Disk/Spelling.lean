import ApiOutline.Text.Utf8

/-!
# How a disk takes a path

A disk takes a path as bytes that end with a zero byte. A text is written as UTF-8; a lone
surrogate from `U+DC80` to `U+DCFF` is written as the one byte that its last two digits give, which
is how names that are not UTF-8 are spelled. No other lone surrogate can be written, and neither can
the character zero.

So two texts can write one name: the bytes of a character may be spelled one by one. A disk gives a
name back in its canonical spelling, in which only the bytes that belong to no character stand by
themselves.
-/

namespace ApiOutline

namespace Disk

/-- Whether a lone surrogate is written as one byte. -/
def isByteUnit (unit : Nat) : Bool :=
  decide (0xDC80 ≤ unit ∧ unit ≤ 0xDCFF)

/-- The bytes that a symbol of a path takes. -/
def symbolBytes : Symbol → List UInt8
  | .lone unit => if isByteUnit unit then [UInt8.ofNat (unit - 0xDC00)] else Utf8.encodeCode unit
  | a => Utf8.encodeCode a.code

/-- The bytes that a path takes. -/
def pathBytes (path : String) : List UInt8 :=
  (Text.symbols path).flatMap symbolBytes

/-- The number of bytes that a path takes. -/
def byteSize (path : String) : Nat :=
  (pathBytes path).length

/-! ### Canonical spellings -/

/-- The character at the head of some bytes and the number of bytes it takes. -/
def firstChar? (bytes : List UInt8) : Option (Char × Nat) :=
  [1, 2, 3, 4].findSome? fun size =>
    match Utf8.decodeFrom 0 (bytes.take size) with
    | .ok [c] => some (c, size)
    | _ => none

/-- The symbols that spell some bytes: the characters they hold, and a surrogate for each byte that
belongs to none; `skip` is how many bytes of a character are still to be passed. -/
def spelledFrom : Nat → List UInt8 → List Symbol
  | _, [] => []
  | skip + 1, _ :: bytes => spelledFrom skip bytes
  | 0, b :: bytes =>
    match firstChar? (b :: bytes) with
    | some (c, size) => .char c :: spelledFrom (size - 1) bytes
    | none => .lone (0xDC00 + b.toNat) :: spelledFrom 0 bytes

/-- The spelling in which a disk gives a path back. Without lone surrogates it is the text
itself. -/
def canonical (path : String) : String :=
  if (Text.symbols path).any Symbol.isLone then Text.ofSymbols (spelledFrom 0 (pathBytes path))
  else path

/-! ### Texts that are no path -/

/-- The lone surrogates at the head of a text. -/
def unitRun : List Symbol → List Nat
  | .lone unit :: rest => unit :: unitRun rest
  | _ => []

/-- The first lone surrogate that cannot be written, with those that follow it without a gap, and
its position; `position` many symbols come before. -/
def unwritableFrom (position : Nat) : List Symbol → Option (Nat × List Nat)
  | [] => none
  | .lone unit :: rest =>
    if isByteUnit unit then unwritableFrom (position + 1) rest
    else some (position, unit :: unitRun rest)
  | _ :: rest => unwritableFrom (position + 1) rest

/-- The lone surrogates that keep a path from being written, and their position. -/
def unwritable? (path : String) : Option (Nat × List Nat) :=
  unwritableFrom 0 (Text.symbols path)

/-- The complaint about lone surrogates at a position. -/
def unwritableText (position : Nat) (units : List Nat) : String :=
  let place := match units with
    | [unit] => "character '\\u" ++ Text.hex 4 unit ++ "' in position " ++ Text.decimal position
    | _ => "characters in position " ++ Text.decimal position ++ "-"
        ++ Text.decimal (position + units.length - 1)
  "'utf-8' codec can't encode " ++ place ++ ": surrogates not allowed"

/-! ### Texts without lone surrogates -/

/-- A text without lone surrogates is its canonical spelling. -/
theorem canonical_eq_self {path : String} (h : ∀ a ∈ Text.symbols path, a.isLone = false) :
    canonical path = path := by
  rw [canonical, if_neg]
  simpa using h

/-- A text without lone surrogates can be written. -/
theorem unwritableFrom_eq_none {as : List Symbol} (h : ∀ a ∈ as, a.isLone = false)
    (position : Nat) : unwritableFrom position as = none := by
  induction as generalizing position with
  | nil => rfl
  | cons a as ih =>
    have first : a.isLone = false := h a List.mem_cons_self
    have rest := ih (fun x hx => h x (List.mem_cons_of_mem a hx)) (position + 1)
    cases a with
    | lone unit => exact absurd first (by simp [Symbol.isLone])
    | char c => exact rest
    | stray => exact rest

end Disk

end ApiOutline
