import ApiOutline.Text.Basic

/-!
# Blank characters

The characters that count as white space at the ends of names and between the marks of a
configuration file: the Unicode property `White_Space` together with the four information
separators U+001C to U+001F. The zero-width space U+200B is not one of them.
-/

namespace ApiOutline

namespace Text

/-- The blank characters as ranges of code points, in increasing order. -/
def blankRanges : List (Nat × Nat) :=
  [(0x09, 0x0D), (0x1C, 0x20), (0x85, 0x85), (0xA0, 0xA0), (0x1680, 0x1680), (0x2000, 0x200A),
    (0x2028, 0x2029), (0x202F, 0x202F), (0x205F, 0x205F), (0x3000, 0x3000)]

/-- Whether a character is blank. -/
def isBlank (c : Char) : Bool :=
  blankRanges.any fun (low, high) => decide (low ≤ c.toNat ∧ c.toNat ≤ high)

/-- `s` without the blank characters at both ends. -/
def strip (s : String) : String :=
  String.ofList (dropRight isBlank (s.toList.dropWhile isBlank))

/-- Whether nothing of `s` remains once its ends are stripped. -/
def isBlankText (s : String) : Bool :=
  s.toList.all isBlank

theorem dropRight_isBlank_eq_nil_iff (cs : List Char) :
    dropRight isBlank cs = [] ↔ cs.all isBlank = true := by
  induction cs with
  | nil => simp [dropRight]
  | cons c cs ih =>
    rw [dropRight]
    cases h : dropRight isBlank cs with
    | nil => by_cases hc : isBlank c = true <;> simp_all
    | cons d ds => simp_all

/-- Stripping leaves nothing exactly when every character is blank. -/
theorem strip_eq_empty_iff (s : String) : strip s = "" ↔ isBlankText s = true := by
  have hof (cs : List Char) : String.ofList cs = "" ↔ cs = [] := by
    rw [← String.toList_inj, String.toList_ofList]
    rfl
  rw [strip, hof, dropRight_isBlank_eq_nil_iff, isBlankText]
  induction s.toList with
  | nil => simp
  | cons c cs ih => by_cases hc : isBlank c = true <;> simp_all

end Text

end ApiOutline
