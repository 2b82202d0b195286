/-!
# Symbols of a text

A text is a run of symbols. Most of them are characters, but an escape can also write one half of a
surrogate pair without the other, and a byte that is part of no character can stand in the name of
a file; such a half is no character. In a string a symbol is spelled by one or two characters: a
lone surrogate by the last code point `U+10FFFF`, which here is the mark, and a private-use
character that tells which surrogate it is, the mark itself by two marks, and every other character
by itself.

No spelling begins another but that of a mark without a meaning, so a string has one reading, and
texts are joined, compared and cut at other characters as strings are. What counts or orders
symbols, or shows them one by one, goes by `Text.symbols`.
-/

namespace ApiOutline

/-- One position of a text: a character, a lone surrogate, or a mark without a meaning, which no
text that was read holds. -/
inductive Symbol where
  | char (c : Char)
  | lone (unit : Nat)
  | stray
  deriving DecidableEq

namespace Symbol

/-- The character that begins the spellings of two characters. -/
def mark : Char := Char.ofNat 0x10FFFF

/-- How far above a surrogate the character lies that tells which it is. -/
def shift : Nat := 0xF0000

/-- Whether a number is that of a surrogate. -/
def isSurrogate (n : Nat) : Bool :=
  decide (0xD800 ≤ n ∧ n < 0xE000)

/-- The surrogate that a character after the mark tells, if it tells one. -/
@[irreducible]
def unit? (c : Char) : Option Nat :=
  if shift ≤ c.toNat ∧ isSurrogate (c.toNat - shift) = true then some (c.toNat - shift) else none

/-- The characters that spell a symbol. -/
def spelling : Symbol → List Char
  | .char c => if c = mark then [mark, mark] else [c]
  | .lone unit => [mark, Char.ofNat (shift + unit)]
  | .stray => [mark]

/-- The number of a symbol; that of a mark without a meaning is greater than all others. -/
def code : Symbol → Nat
  | .char c => c.toNat
  | .lone unit => unit
  | .stray => 0x110000

/-- The symbol with a number. -/
def ofCode (n : Nat) : Symbol :=
  if isSurrogate n then .lone n else .char (Char.ofNat n)

/-- Whether a symbol is a lone surrogate. -/
def isLone : Symbol → Bool
  | .lone _ => true
  | _ => false

/-- Whether a symbol can be read: it is a character or one of the surrogates. -/
def isSound : Symbol → Bool
  | .char _ => true
  | .lone unit => isSurrogate unit
  | .stray => false

end Symbol

namespace Text

/-- The symbols that characters spell. -/
def symbolsOf : List Char → List Symbol
  | [] => []
  | c :: cs =>
    if c = Symbol.mark then
      match cs with
      | [] => [.stray]
      | d :: ds =>
        if d = Symbol.mark then .char Symbol.mark :: symbolsOf ds
        else
          match Symbol.unit? d with
          | some unit => .lone unit :: symbolsOf ds
          | none => .stray :: symbolsOf (d :: ds)
    else .char c :: symbolsOf cs

/-- The symbols of a text. -/
def symbols (s : String) : List Symbol :=
  symbolsOf s.toList

/-- The text of some symbols. -/
def ofSymbols (symbols : List Symbol) : String :=
  String.ofList (symbols.flatMap Symbol.spelling)

/-- The text of some characters. -/
def ofChars (cs : List Char) : String :=
  ofSymbols (cs.map .char)

/-! ### Order -/

/-- Whether `as` comes before `bs`, or is `bs`, when lists are ordered by their first different
symbols. -/
def precedesOn : List Symbol → List Symbol → Bool
  | [], _ => true
  | _ :: _, [] => false
  | a :: as, b :: bs => decide (a.code < b.code) || (a.code == b.code && precedesOn as bs)

/-- Whether `a` comes before `b`, or is `b`, when texts are ordered by the numbers of their
symbols. -/
def precedes (a b : String) : Bool :=
  precedesOn (symbols a) (symbols b)

/-! ### Reading back what was spelled -/

theorem toNat_ofNat_of_isValidChar {n : Nat} (h : n.isValidChar) : (Char.ofNat n).toNat = n := by
  rw [Char.ofNat, dif_pos h]
  rfl

/-- The character after the mark tells which surrogate is spelled. -/
theorem unit?_ofNat {unit : Nat} (h : Symbol.isSurrogate unit = true) :
    Symbol.unit? (Char.ofNat (Symbol.shift + unit)) = some unit := by
  have bounds : 0xD800 ≤ unit ∧ unit < 0xE000 := by simpa [Symbol.isSurrogate] using h
  have shift : Symbol.shift = 0xF0000 := rfl
  have value : (Char.ofNat (Symbol.shift + unit)).toNat = Symbol.shift + unit :=
    toNat_ofNat_of_isValidChar (Or.inr ⟨by omega, by omega⟩)
  unfold Symbol.unit?
  rw [value, Nat.add_sub_cancel_left, if_pos ⟨Nat.le_add_right _ _, h⟩]

/-- A surrogate that a character tells gives the character back. -/
theorem ofNat_of_unit? {c : Char} {unit : Nat} (h : Symbol.unit? c = some unit) :
    Char.ofNat (Symbol.shift + unit) = c := by
  unfold Symbol.unit? at h
  split at h
  · next hc =>
    obtain rfl := Option.some.inj h
    rw [Nat.add_sub_cancel' hc.1, Char.ofNat_toNat]
  · exact absurd h (by simp)

/-- Spelling the symbols of a string gives it back, so no two strings have the same symbols. -/
theorem ofSymbols_symbols (s : String) : ofSymbols (symbols s) = s := by
  have chars (cs : List Char) : (symbolsOf cs).flatMap Symbol.spelling = cs := by
    fun_induction symbolsOf cs with
    | case1 => rfl
    | case2 => rfl
    | case3 ds ih => simp [Symbol.spelling, ih]
    | case4 d ds hd unit hu ih => simp [Symbol.spelling, ih, ofNat_of_unit? hu]
    | case5 d ds hd hu ih => simpa [Symbol.spelling] using ih
    | case6 c cs hc ih => simp [Symbol.spelling, ih, hc]
  rw [ofSymbols, symbols, chars, String.ofList_toList]

theorem symbolsOf_spelling_append {a : Symbol} (h : a.isSound = true) (cs : List Char) :
    symbolsOf (a.spelling ++ cs) = a :: symbolsOf cs := by
  cases a with
  | char c =>
    by_cases hc : c = Symbol.mark
    · simp [Symbol.spelling, symbolsOf, hc]
    · rw [Symbol.spelling, if_neg hc, List.singleton_append, symbolsOf.eq_def]
      simp only [hc, if_false]
  | lone unit =>
    have ne : Char.ofNat (Symbol.shift + unit) ≠ Symbol.mark := by
      intro eq
      have hu := unit?_ofNat h
      rw [eq] at hu
      have hm : Symbol.unit? Symbol.mark = none := by
        unfold Symbol.unit?
        decide
      rw [hm] at hu
      exact absurd hu (by simp)
    simp [Symbol.spelling, symbolsOf, ne, unit?_ofNat h]
  | stray => exact absurd h (by simp [Symbol.isSound])

/-- The symbols of a text that was spelled from sound symbols are those. -/
theorem symbols_ofSymbols {as : List Symbol} (h : ∀ a ∈ as, a.isSound = true) :
    symbols (ofSymbols as) = as := by
  rw [symbols, ofSymbols, String.toList_ofList]
  induction as with
  | nil => rfl
  | cons a as ih =>
    rw [List.flatMap_cons, symbolsOf_spelling_append (h a List.mem_cons_self),
      ih fun b hb => h b (List.mem_cons_of_mem a hb)]

end Text

end ApiOutline
