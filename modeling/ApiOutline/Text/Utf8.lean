import ApiOutline.Text.Basic
import ApiOutline.Text.Symbol

/-!
# UTF-8

A text is written as bytes and read back from them. Bytes are read strictly: overlong forms,
surrogates and code points beyond U+10FFFF are refused. A refusal names the first byte of the
sequence that cannot be continued, where it stands, and how many bytes of it were still acceptable
together.
-/

namespace ApiOutline

namespace Utf8

/-- Why a sequence of bytes is no character. -/
inductive Reason where
  /-- No character begins with this byte. -/
  | start
  /-- A byte that had to continue the character does not. -/
  | continuation
  /-- The bytes end inside the character. -/
  | ending
  deriving DecidableEq

/-- Where reading stopped: `size` bytes from `offset` on, the first of which is `byte`. -/
structure Fault where
  byte : UInt8
  offset : Nat
  size : Nat
  reason : Reason
  deriving DecidableEq

/-- The words for a reason. -/
def Reason.text : Reason → String
  | .start => "invalid start byte"
  | .continuation => "invalid continuation byte"
  | .ending => "unexpected end of data"

/-- One byte is shown by its value, several by their range of positions. -/
def Fault.message (f : Fault) : String :=
  if f.size = 1 then
    "'utf-8' codec can't decode byte 0x" ++ Text.hex 2 f.byte.toNat ++ " in position "
      ++ Text.decimal f.offset ++ ": " ++ f.reason.text
  else
    "'utf-8' codec can't decode bytes in position " ++ Text.decimal f.offset ++ "-"
      ++ Text.decimal (f.offset + f.size - 1) ++ ": " ++ f.reason.text

/-- Whether a byte is one that continues a character. -/
def isTail (b : UInt8) : Bool :=
  decide (0x80 ≤ b.toNat ∧ b.toNat < 0xC0)

/-- Whether `b` may follow the first byte `a` of a character of three bytes. -/
def isSecondOfThree (a b : UInt8) : Bool :=
  isTail b && (if a == 0xE0 then decide (0xA0 ≤ b.toNat) else true)
    && (if a == 0xED then decide (b.toNat < 0xA0) else true)

/-- Whether `b` may follow the first byte `a` of a character of four bytes. -/
def isSecondOfFour (a b : UInt8) : Bool :=
  isTail b && (if a == 0xF0 then decide (0x90 ≤ b.toNat) else true)
    && (if a == 0xF4 then decide (b.toNat < 0x90) else true)

/-- The low six bits of a byte that continues a character. -/
def payload (b : UInt8) : Nat :=
  b.toNat % 0x40

/-- Reads the bytes from position `pos` on. -/
def decodeFrom (pos : Nat) : List UInt8 → Except Fault (List Char)
  | [] => .ok []
  | a :: rest =>
    if a.toNat < 0x80 then
      (decodeFrom (pos + 1) rest).map (Char.ofNat a.toNat :: ·)
    else if a.toNat < 0xC2 then .error ⟨a, pos, 1, .start⟩
    else if a.toNat < 0xE0 then
      match rest with
      | [] => .error ⟨a, pos, 1, .ending⟩
      | b :: rest =>
        if !isTail b then .error ⟨a, pos, 1, .continuation⟩
        else (decodeFrom (pos + 2) rest).map
          (Char.ofNat ((a.toNat - 0xC0) * 0x40 + payload b) :: ·)
    else if a.toNat < 0xF0 then
      match rest with
      | [] => .error ⟨a, pos, 1, .ending⟩
      | [b] =>
        .error (if isSecondOfThree a b then ⟨a, pos, 2, .ending⟩ else ⟨a, pos, 1, .continuation⟩)
      | b :: c :: rest =>
        if !isSecondOfThree a b then .error ⟨a, pos, 1, .continuation⟩
        else if !isTail c then .error ⟨a, pos, 2, .continuation⟩
        else (decodeFrom (pos + 3) rest).map
          (Char.ofNat (((a.toNat - 0xE0) * 0x40 + payload b) * 0x40 + payload c) :: ·)
    else if a.toNat < 0xF5 then
      match rest with
      | [] => .error ⟨a, pos, 1, .ending⟩
      | [b] =>
        .error (if isSecondOfFour a b then ⟨a, pos, 2, .ending⟩ else ⟨a, pos, 1, .continuation⟩)
      | [b, c] =>
        .error (if !isSecondOfFour a b then ⟨a, pos, 1, .continuation⟩
          else if isTail c then ⟨a, pos, 3, .ending⟩ else ⟨a, pos, 2, .continuation⟩)
      | b :: c :: d :: rest =>
        if !isSecondOfFour a b then .error ⟨a, pos, 1, .continuation⟩
        else if !isTail c then .error ⟨a, pos, 2, .continuation⟩
        else if !isTail d then .error ⟨a, pos, 3, .continuation⟩
        else (decodeFrom (pos + 4) rest).map
          (Char.ofNat ((((a.toNat - 0xF0) * 0x40 + payload b) * 0x40 + payload c) * 0x40
            + payload d) :: ·)
    else .error ⟨a, pos, 1, .start⟩

/-- The text that a sequence of bytes spells. -/
def decode (bytes : List UInt8) : Except Fault String :=
  (decodeFrom 0 bytes).map Text.ofChars

/-! ### Writing -/

/-- The byte that continues a character with the low six bits of `n`. -/
def tail (n : Nat) : UInt8 :=
  UInt8.ofNat (0x80 + n % 0x40)

/-- The bytes of the code point `n`. -/
def encodeCode (n : Nat) : List UInt8 :=
  if n < 0x80 then [UInt8.ofNat n]
  else if n < 0x800 then [UInt8.ofNat (0xC0 + n / 0x40), tail n]
  else if n < 0x10000 then [UInt8.ofNat (0xE0 + n / 0x1000), tail (n / 0x40), tail n]
  else [UInt8.ofNat (0xF0 + n / 0x40000), tail (n / 0x1000), tail (n / 0x40), tail n]

/-- The bytes of a text. -/
def encode (text : String) : List UInt8 :=
  (Text.symbols text).flatMap fun a => encodeCode a.code

/-- Bytes below 0x80 spell the characters with those code points. -/
theorem decodeFrom_ascii (pos : Nat) (bytes : List UInt8) (h : ∀ b ∈ bytes, b.toNat < 0x80) :
    decodeFrom pos bytes = .ok (bytes.map fun b => Char.ofNat b.toNat) := by
  induction bytes generalizing pos with
  | nil => rfl
  | cons a rest ih =>
    have ha : a.toNat < 0x80 := h a List.mem_cons_self
    rw [decodeFrom.eq_def]
    simp only [ha, if_true, ih (pos + 1) fun b hb => h b (List.mem_cons_of_mem a hb)]
    rfl

end Utf8

end ApiOutline
