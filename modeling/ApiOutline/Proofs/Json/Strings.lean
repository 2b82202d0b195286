import ApiOutline.Json.Writer
import ApiOutline.Proofs.Json.Grammar
import Mathlib.Data.List.Infix

/-!
# Strings that are written and read again

A string is written symbol by symbol, and each reads as it was (`ReadsString.symbol`): as it stands,
by an escape of two characters, or by one or two escapes of four digits. There is one exception.
Where the two halves of a surrogate pair stand side by side as lone surrogates, and both are
escaped, the escapes read as the one character that the pair writes. `Text.joined` says what becomes
of symbols by this, and `Style.reread` what becomes of a string.
-/

namespace ApiOutline

namespace Json

/-! ### Hexadecimal digits -/

private theorem hexDigit?_digitChar {n : Nat} (h : n < 16) : hexDigit? n.digitChar = some n := by
  have hall : ∀ k < 16, hexDigit? (Nat.digitChar k) = some k := by decide
  exact hall n h

private theorem toList_hex_one {n : Nat} (h : n < 16) : (Text.hex 1 n).toList = [n.digitChar] := by
  rw [Text.hex, String.toList_ofList, Nat.toDigits_of_lt_base h]
  rfl

/-- The last digit, and the digits before it. -/
private theorem toList_hex_succ {width : Nat} (hwidth : 0 < width) (n : Nat) :
    (Text.hex (width + 1) n).toList =
      (Text.hex width (n / 16)).toList ++ [(n % 16).digitChar] := by
  rw [Text.hex, Text.hex, String.toList_ofList, String.toList_ofList]
  by_cases h : n < 16
  · -- a zero is written before the one digit
    obtain ⟨k, rfl⟩ : ∃ k, width = k + 1 := ⟨width - 1, by omega⟩
    rw [Nat.toDigits_of_lt_base h, Nat.div_eq_of_lt h, Nat.mod_eq_of_lt h, Nat.toDigits_zero]
    have hzeros : List.replicate k '0' ++ ['0'] = List.replicate (k + 1) '0' :=
      List.replicate_succ'.symm
    simp [hzeros]
  · rw [Nat.toDigits_of_base_le (by decide) (Nat.le_of_not_lt h), List.length_append,
      List.length_singleton, Nat.add_sub_add_right, List.append_assoc]

/-- An escape of four digits tells its number. -/
private theorem exists_unitEscape {n : Nat} (h : n < 0x10000) : ∃ a b c d,
    (unitEscape n).toList = ['\\', 'u', a, b, c, d] ∧ hexFour? a b c d = some n := by
  refine ⟨(n / 16 / 16 / 16).digitChar, (n / 16 / 16 % 16).digitChar, (n / 16 % 16).digitChar,
    (n % 16).digitChar, ?_, ?_⟩
  · rw [unitEscape, String.toList_append, toList_hex_succ (by decide), toList_hex_succ (by decide),
      toList_hex_succ (by decide), toList_hex_one (by omega)]
    rfl
  · rw [hexFour?, hexDigit?_digitChar (by omega), hexDigit?_digitChar (by omega),
      hexDigit?_digitChar (by omega), hexDigit?_digitChar (by omega)]
    exact congrArg some (by omega)

/-! ### Halves of surrogate pairs -/

private theorem secondHalf?_of_not_high {n : Nat} (h : isHighHalf n = false) (cs : List Char) :
    secondHalf? n cs = .ok none := by
  rw [secondHalf?.eq_def]
  split
  · rw [if_pos (by rw [h]; rfl)]
  · rfl

/-- An escape that gives no second half is none. -/
private theorem secondHalf?_of_not_low {w x y z : Char} {m : Nat} (hm : hexFour? w x y z = some m)
    (hlow : isLowHalf m = false) (n : Nat) (cs : List Char) :
    secondHalf? n ('\\' :: 'u' :: w :: x :: y :: z :: cs) = .ok none := by
  rw [secondHalf?, hm]
  simp only [hlow, Bool.false_eq_true, if_false]
  split_ifs
  · rfl
  · rfl

end Json

namespace Text

/-- The symbols that are left of some when each first half of a surrogate pair that is directly
followed by a second half is joined to it. -/
def joined : List Symbol → List Symbol
  | .lone n :: .lone m :: rest =>
    if Json.isHighHalf n && Json.isLowHalf m then
      Symbol.ofCode (Json.pairCode n m) :: joined rest
    else .lone n :: joined (.lone m :: rest)
  | a :: rest => a :: joined rest
  | [] => []

end Text

namespace Json

/-! ### Symbols -/

/-- A symbol that the style writes so that it can be read. -/
def Style.Covers (style : Style) (a : Symbol) : Prop :=
  a.isSound = true ∨ style.ascii = false ∧ a = .stray

private theorem shortEscape?_eq_some {a : Symbol} {text : String} (h : shortEscape? a = some text) :
    ∃ e c, text.toList = ['\\', e] ∧ escaped? e = some c ∧ a.spelling = [c] := by
  rw [shortEscape?.eq_def] at h
  split at h
  · exact Option.some.inj h ▸ ⟨'"', '"', by decide, rfl, by decide⟩
  · exact Option.some.inj h ▸ ⟨'\\', '\\', by decide, rfl, by decide⟩
  · exact Option.some.inj h ▸ ⟨'n', '\n', by decide, rfl, by decide⟩
  · exact Option.some.inj h ▸ ⟨'r', '\r', by decide, rfl, by decide⟩
  · exact Option.some.inj h ▸ ⟨'t', '\t', by decide, rfl, by decide⟩
  · exact Option.some.inj h ▸ ⟨'f', '\x0c', by decide, rfl, by decide⟩
  · exact Option.some.inj h ▸ ⟨'b', '\x08', by decide, rfl, by decide⟩
  · cases h

private theorem not_isSurrogate_toNat (c : Char) : Symbol.isSurrogate c.toNat = false := by
  have hvalid : c.toNat < 0xD800 ∨ 0xDFFF < c.toNat ∧ c.toNat < 0x110000 := c.valid
  simp only [Symbol.isSurrogate, decide_eq_false_iff_not]
  omega

/-- A sound symbol is the one with its number. -/
private theorem ofCode_code {a : Symbol} (h : a.isSound = true) : Symbol.ofCode a.code = a := by
  cases a with
  | char c => rw [Symbol.code, Symbol.ofCode, if_neg (by simp [not_isSurrogate_toNat]),
      Char.ofNat_toNat]
  | lone unit => exact if_pos h
  | stray => cases h

private theorem isSurrogate_of_isHighHalf {n : Nat} (h : isHighHalf n = true) :
    Symbol.isSurrogate n = true := by
  simp only [isHighHalf, Symbol.isSurrogate, decide_eq_true_eq] at h ⊢
  omega

/-- Characters that stand for themselves in a string. -/
def isRaw (c : Char) : Bool :=
  c ≠ '"' && c ≠ '\\' && decide (0x20 ≤ c.toNat)

private theorem isRaw_of_toNat {c : Char} (h : 0x5D ≤ c.toNat) : isRaw c = true := by
  have hne : ∀ d : Char, d.toNat < 0x5D → c ≠ d := by
    rintro d hd rfl
    omega
  simp [isRaw, hne '"' (by decide), hne '\\' (by decide)]
  omega

private theorem isRaw_of_mem_spelling {style : Style} {a : Symbol} (hcovers : style.Covers a)
    (hshort : shortEscape? a = none) (hcode : 0x20 ≤ a.code) {c : Char} (hc : c ∈ a.spelling) :
    isRaw c = true := by
  have hmark : isRaw Symbol.mark = true := by decide
  cases a with
  | char d =>
    rw [Symbol.spelling] at hc
    split_ifs at hc with hd
    · simp only [List.mem_cons, List.not_mem_nil, or_false, or_self] at hc
      rw [hc]
      exact hmark
    · obtain rfl := List.mem_singleton.mp hc
      have hquote : c ≠ '"' := by
        rintro rfl
        cases hshort
      have hslash : c ≠ '\\' := by
        rintro rfl
        cases hshort
      simpa [isRaw, hquote, hslash, Symbol.code] using hcode
  | lone unit =>
    have hsound : Symbol.isSurrogate unit = true := by
      rcases hcovers with h | ⟨-, h⟩
      · exact h
      · cases h
    rw [Symbol.spelling] at hc
    rcases List.mem_cons.mp hc with rfl | hc
    · exact hmark
    · rw [List.mem_singleton.mp hc]
      refine isRaw_of_toNat ?_
      simp only [Symbol.isSurrogate, decide_eq_true_eq] at hsound
      have hshift : Symbol.shift = 0xF0000 := rfl
      rw [Text.toNat_ofNat_of_isValidChar (.inr ⟨by omega, by omega⟩)]
      omega
  | stray =>
    rw [List.mem_singleton.mp hc]
    exact hmark

theorem ReadsString.raw {cs rest s left : List Char} (hcs : ∀ c ∈ cs, isRaw c = true)
    (h : ReadsString rest s left) : ReadsString (cs ++ rest) (cs ++ s) left := by
  induction cs with
  | nil => exact h
  | cons c cs ih =>
    obtain ⟨hc, hcs⟩ := List.forall_mem_cons.mp hcs
    simp only [isRaw, Bool.and_eq_true, decide_eq_true_eq] at hc
    exact .char hc.1 hc.2 (ih hcs)

theorem ReadsString.unitEscape {n : Nat} (hn : n < 0x10000) {cs s left : List Char}
    (hlone : secondHalf? n cs = .ok none) (h : ReadsString cs s left) :
    ReadsString ((unitEscape n).toList ++ cs) ((Symbol.ofCode n).spelling ++ s) left := by
  obtain ⟨a, b, c, d, htext, hfour⟩ := exists_unitEscape hn
  rw [htext]
  exact .unit hfour hlone h

private theorem ReadsString.pairEscape {n m : Nat} (hhigh : isHighHalf n = true)
    (hlow : isLowHalf m = true) {cs s left : List Char} (h : ReadsString cs s left) :
    ReadsString ((Json.unitEscape n).toList ++ ((Json.unitEscape m).toList ++ cs))
      ((Symbol.ofCode (pairCode n m)).spelling ++ s) left := by
  have hn : n < 0x10000 := by
    simp only [isHighHalf, decide_eq_true_eq] at hhigh
    omega
  have hm : m < 0x10000 := by
    simp only [isLowHalf, decide_eq_true_eq] at hlow
    omega
  obtain ⟨a, b, c, d, htext, hfour⟩ := exists_unitEscape hn
  obtain ⟨w, x, y, z, htext', hfour'⟩ := exists_unitEscape hm
  rw [htext, htext']
  exact .pair hfour hhigh hfour' hlow h

private theorem pairCode_add (high low : Nat) :
    pairCode (0xD800 + high) (0xDC00 + low) = 0x10000 + high * 0x400 + low := by
  have hpair : 0x10000 + (0xD800 + high - 0xD800) * 0x400 + (0xDC00 + low - 0xDC00) =
      0x10000 + high * 0x400 + low := by omega
  exact hpair

/-- The halves of the pair that writes a code point beyond the first plane. -/
private theorem pairCode_halves {n : Nat} (hn : 0x10000 ≤ n) (hn' : n < 0x110000) :
    isHighHalf (0xD800 + (n - 0x10000) / 0x400) = true ∧
      isLowHalf (0xDC00 + (n - 0x10000) % 0x400) = true ∧
      pairCode (0xD800 + (n - 0x10000) / 0x400) (0xDC00 + (n - 0x10000) % 0x400) = n := by
  rw [pairCode_add]
  simp only [isHighHalf, isLowHalf, decide_eq_true_eq]
  omega

private theorem code_lt_of_isSound {a : Symbol} (h : a.isSound = true) : a.code < 0x110000 := by
  cases a with
  | char c =>
    have hvalid : c.toNat < 0xD800 ∨ 0xDFFF < c.toNat ∧ c.toNat < 0x110000 := c.valid
    simp only [Symbol.code]
    omega
  | lone unit =>
    simp only [Symbol.isSound, Symbol.isSurrogate, decide_eq_true_eq] at h
    simp only [Symbol.code]
    omega
  | stray => cases h

/-- A sound symbol whose number is that of a first half is that half. -/
private theorem eq_lone_of_isHighHalf {a : Symbol} (h : a.isSound = true)
    (hhigh : isHighHalf a.code = true) : a = .lone a.code := by
  conv_lhs => rw [← ofCode_code h]
  exact if_pos (isSurrogate_of_isHighHalf hhigh)

theorem ReadsString.codeEscape {a : Symbol} (hsound : a.isSound = true) {cs s left : List Char}
    (hlone : ∀ n, a = .lone n → secondHalf? n cs = .ok none) (h : ReadsString cs s left) :
    ReadsString ((codeEscape a.code).toList ++ cs) (a.spelling ++ s) left := by
  rw [Json.codeEscape]
  split_ifs with hn
  · have hhalf : secondHalf? a.code cs = .ok none := by
      cases hhigh : isHighHalf a.code with
      | false => exact secondHalf?_of_not_high hhigh cs
      | true => exact hlone _ (eq_lone_of_isHighHalf hsound hhigh)
    have hread := h.unitEscape hn hhalf
    rwa [ofCode_code hsound] at hread
  · obtain ⟨hhigh, hlow, hcode⟩ :=
      pairCode_halves (Nat.le_of_not_lt hn) (code_lt_of_isSound hsound)
    have hread := h.pairEscape hhigh hlow
    rwa [hcode, ofCode_code hsound, ← List.append_assoc, ← String.toList_append] at hread

/-- **A symbol reads as it was**, unless it is the first half of a surrogate pair that is escaped
before a second half. -/
theorem ReadsString.symbol {style : Style} {a : Symbol} (hcovers : style.Covers a)
    {cs s left : List Char}
    (hlone : style.ascii = true → ∀ n, a = .lone n → secondHalf? n cs = .ok none)
    (h : ReadsString cs s left) :
    ReadsString ((writeSymbol style a).toList ++ cs) (a.spelling ++ s) left := by
  rw [writeSymbol.eq_def]
  cases hshort : shortEscape? a with
  | some text =>
    obtain ⟨e, c, htext, hc, hspelling⟩ := shortEscape?_eq_some hshort
    dsimp only
    rw [htext, hspelling]
    exact .escape hc h
  | none =>
    dsimp only
    split_ifs with hcontrol hraw
    · -- a control character is its own escape
      have hsound : a.isSound = true := by
        rcases hcovers with hsound | ⟨-, rfl⟩
        · exact hsound
        · exact absurd hcontrol (by decide)
      have hhigh : isHighHalf a.code = false := by
        simp only [isHighHalf, decide_eq_false_iff_not]
        omega
      have hread := h.unitEscape (by omega) (secondHalf?_of_not_high hhigh cs)
      rwa [ofCode_code hsound] at hread
    · have htext : (Text.ofSymbols [a]).toList = a.spelling := by
        rw [Text.ofSymbols, String.toList_ofList, List.flatMap_singleton]
      rw [htext]
      exact h.raw fun c hc => isRaw_of_mem_spelling hcovers hshort (Nat.le_of_not_lt hcontrol) hc
    · have hascii : style.ascii = true := by
        by_contra hnot
        exact hraw (by simp [hnot])
      have hsound : a.isSound = true := by
        rcases hcovers with hsound | ⟨hnot, -⟩
        · exact hsound
        · rw [hascii] at hnot
          cases hnot
      exact h.codeEscape hsound (hlone hascii)

/-! ### Strings -/

/-- The inside of a string with some symbols. -/
def written (style : Style) (as : List Symbol) : List Char :=
  as.flatMap fun a => (writeSymbol style a).toList

private theorem written_cons (style : Style) (a : Symbol) (as : List Symbol) :
    written style (a :: as) = (writeSymbol style a).toList ++ written style as :=
  List.flatMap_cons

private theorem toList_writeString (style : Style) (s : String) :
    (writeString style s).toList = '"' :: (written style (Text.symbols s) ++ ['"']) := by
  have hjoin : ∀ as : List Symbol,
      (String.join (as.map (writeSymbol style))).toList = written style as := by
    intro as
    induction as with
    | nil => rfl
    | cons a as ih =>
      rw [List.map_cons, String.join_cons, String.toList_append, ih, written_cons]
  rw [writeString, String.toList_append, String.toList_append, hjoin]
  rfl

private theorem spelling_ne_nil (a : Symbol) : a.spelling ≠ [] := by
  cases a with
  | char c =>
    rw [Symbol.spelling]
    split_ifs <;> simp
  | lone unit => simp [Symbol.spelling]
  | stray => simp [Symbol.spelling]

private theorem writeSymbol_lone {style : Style} (hascii : style.ascii = true) {n : Nat}
    (h : Symbol.isSurrogate n = true) : writeSymbol style (.lone n) = unitEscape n := by
  simp only [Symbol.isSurrogate, decide_eq_true_eq] at h
  have hshort : shortEscape? (.lone n) = none := rfl
  rw [writeSymbol, hshort]
  have hcontrol : ¬n < 0x20 := by omega
  have hraw : ¬n < 0x7F := by omega
  have hunit : n < 0x10000 := by omega
  simp [hascii, Symbol.code, hcontrol, hraw, codeEscape, hunit]

/-- What is written of a symbol that is no second half begins no escape of one. -/
private theorem secondHalf?_symbol {style : Style} {b : Symbol} (hsound : b.isSound = true)
    (hnot : ∀ m, b = .lone m → isLowHalf m = false) (n : Nat) (cs : List Char) :
    secondHalf? n ((writeSymbol style b).toList ++ cs) = .ok none := by
  have hlow : isLowHalf b.code = false := by
    by_contra hlow
    have hsurrogate : Symbol.isSurrogate b.code = true := by
      simp only [isLowHalf, Bool.not_eq_false, decide_eq_true_eq, Symbol.isSurrogate] at hlow ⊢
      omega
    have hlone : b = .lone b.code := by
      conv_lhs => rw [← ofCode_code hsound]
      exact if_pos hsurrogate
    exact hlow (hnot _ hlone)
  have hunit : ∀ {m : Nat}, m < 0x10000 → isLowHalf m = false → ∀ cs,
      secondHalf? n ((unitEscape m).toList ++ cs) = .ok none := by
    intro m hm hlow cs
    obtain ⟨w, x, y, z, htext, hfour⟩ := exists_unitEscape hm
    rw [htext]
    exact secondHalf?_of_not_low hfour hlow n cs
  rw [writeSymbol.eq_def]
  cases hshort : shortEscape? b with
  | some text =>
    obtain ⟨e, c, htext, hc, -⟩ := shortEscape?_eq_some hshort
    dsimp only
    rw [htext]
    refine secondHalf?_of_ne fun rest heq => ?_
    rw [(List.cons.inj (List.cons.inj heq).2).1] at hc
    cases hc
  | none =>
    dsimp only
    split_ifs with hcontrol hraw
    · exact hunit (by omega) hlow cs
    · have htext : (Text.ofSymbols [b]).toList = b.spelling := by
        rw [Text.ofSymbols, String.toList_ofList, List.flatMap_singleton]
      rw [htext]
      refine secondHalf?_of_ne fun rest heq => ?_
      have hmem : '\\' ∈ b.spelling := by
        obtain ⟨d, ds, hspelling⟩ := List.exists_cons_of_ne_nil (spelling_ne_nil b)
        rw [hspelling, List.cons_append] at heq
        rw [hspelling, (List.cons.inj heq).1]
        exact List.mem_cons_self
      have hcovers : style.Covers b := .inl hsound
      have hslash := isRaw_of_mem_spelling hcovers hshort (Nat.le_of_not_lt hcontrol) hmem
      exact absurd hslash (by decide)
    · rw [codeEscape]
      split_ifs with hn
      · exact hunit hn hlow cs
      · rw [String.toList_append, List.append_assoc]
        obtain ⟨hhigh, -, -⟩ := pairCode_halves (Nat.le_of_not_lt hn) (code_lt_of_isSound hsound)
        simp only [isHighHalf, decide_eq_true_eq] at hhigh
        exact hunit (by omega) (decide_eq_false (by omega)) _

/-- **Escaped symbols read as they are joined.** -/
theorem readsString_joined {style : Style} (hascii : style.ascii = true) {as : List Symbol}
    (hsound : ∀ a ∈ as, a.isSound = true) (left : List Char) :
    ReadsString (written style as ++ '"' :: left) ((Text.joined as).flatMap Symbol.spelling)
      left := by
  -- a symbol before some others of which the first is not joined to it
  have hsymbol : ∀ {a : Symbol} {rest : List Symbol} {s : List Char}, a.isSound = true →
      (∀ b ∈ rest, b.isSound = true) → (∀ n, a = .lone n → isHighHalf n = true →
        ∀ m, rest.head? = some (.lone m) → isLowHalf m = false) →
      ReadsString (written style rest ++ '"' :: left) s left →
      ReadsString (written style (a :: rest) ++ '"' :: left) (a.spelling ++ s) left := by
    intro a rest s ha hrest hapart h
    rw [written_cons, List.append_assoc]
    refine h.symbol (.inl ha) fun _ n hlone => ?_
    cases hhigh : isHighHalf n with
    | false => exact secondHalf?_of_not_high hhigh _
    | true =>
      cases rest with
      | nil => rfl
      | cons b rest =>
        rw [written_cons, List.append_assoc]
        refine secondHalf?_symbol (hrest b List.mem_cons_self) (fun m hm => ?_) n _
        exact hapart n hlone hhigh m (congrArg some hm)
  fun_induction Text.joined as with
  | case1 n m rest hhalves ih =>
    obtain ⟨hhigh, hlow⟩ := Bool.and_eq_true_iff.mp hhalves
    obtain ⟨hn, hsound⟩ := List.forall_mem_cons.mp hsound
    obtain ⟨hm, hsound⟩ := List.forall_mem_cons.mp hsound
    rw [written_cons, written_cons, writeSymbol_lone hascii hn, writeSymbol_lone hascii hm,
      List.append_assoc, List.append_assoc, List.flatMap_cons]
    exact (ih hsound).pairEscape hhigh hlow
  | case2 n m rest hhalves ih =>
    obtain ⟨hn, hrest⟩ := List.forall_mem_cons.mp hsound
    refine hsymbol hn hrest (fun k hk hhigh l hl => ?_) (ih hrest)
    obtain rfl := Symbol.lone.inj hk
    obtain rfl := Symbol.lone.inj (Option.some.inj hl)
    rw [hhigh, Bool.true_and] at hhalves
    exact eq_false_of_ne_true hhalves
  | case3 a rest hnot ih =>
    obtain ⟨ha, hrest⟩ := List.forall_mem_cons.mp hsound
    refine hsymbol ha hrest (fun n hn _ m hm => ?_) (ih hrest)
    obtain ⟨others, rfl⟩ := List.head?_eq_some_iff.mp hm
    exact absurd rfl (hnot n m others hn)
  | case4 => exact .close left

/-- Symbols that are not escaped read as they were. -/
private theorem readsString_of_not_ascii {style : Style} (hascii : style.ascii = false)
    {as : List Symbol} (hcovers : ∀ a ∈ as, style.Covers a) (left : List Char) :
    ReadsString (written style as ++ '"' :: left) (as.flatMap Symbol.spelling) left := by
  induction as with
  | nil => exact .close left
  | cons a as ih =>
    obtain ⟨ha, has⟩ := List.forall_mem_cons.mp hcovers
    rw [written_cons, List.append_assoc, List.flatMap_cons]
    refine (ih has).symbol ha fun htrue => ?_
    rw [hascii] at htrue
    cases htrue

/-- The symbols of a string are sound but for marks without a meaning. -/
theorem isSound_of_mem_symbols {s : String} {a : Symbol} (h : a ∈ Text.symbols s) :
    a.isSound = true ∨ a = .stray := by
  rw [Text.symbols] at h
  generalize s.toList = cs at h
  fun_induction Text.symbolsOf cs with
  | case1 => cases h
  | case2 => exact .inr (List.mem_singleton.mp h)
  | case3 ds ih =>
    rcases List.mem_cons.mp h with rfl | h
    · exact .inl rfl
    · exact ih h
  | case4 d ds _ unit hunit ih =>
    rcases List.mem_cons.mp h with rfl | h
    · refine .inl ?_
      rw [Symbol.unit?] at hunit
      split_ifs at hunit with hd
      obtain rfl := Option.some.inj hunit
      exact hd.2
    · exact ih h
  | case5 d ds _ _ ih =>
    rcases List.mem_cons.mp h with rfl | h
    · exact .inr rfl
    · exact ih h
  | case6 c cs _ ih =>
    rcases List.mem_cons.mp h with rfl | h
    · exact .inl rfl
    · exact ih h

/-- A string that the style can write: no escape tells a mark without a meaning. -/
def Style.Writes (style : Style) (s : String) : Prop :=
  style.ascii = true → .stray ∉ Text.symbols s

/-- The string that is read where a string was written. -/
def Style.reread (style : Style) (s : String) : String :=
  if style.ascii then Text.ofSymbols (Text.joined (Text.symbols s)) else s

/-- **A written string** is read, as itself or with halves of surrogate pairs joined. -/
theorem readsString_writeString {style : Style} {s : String} (h : style.Writes s)
    (left : List Char) : ∃ cs chars, (writeString style s).toList ++ left = '"' :: cs ∧
      ReadsString cs chars left ∧ String.ofList chars = style.reread s := by
  have htext : (writeString style s).toList ++ left =
      '"' :: (written style (Text.symbols s) ++ '"' :: left) := by
    simp [toList_writeString]
  rw [Style.reread]
  cases hascii : style.ascii with
  | false =>
    have hcovers : ∀ a ∈ Text.symbols s, style.Covers a := fun a ha =>
      (isSound_of_mem_symbols ha).imp_right fun hstray => ⟨hascii, hstray⟩
    exact ⟨_, _, htext, readsString_of_not_ascii hascii hcovers left, Text.ofSymbols_symbols s⟩
  | true =>
    have hsound : ∀ a ∈ Text.symbols s, a.isSound = true := by
      intro a ha
      refine (isSound_of_mem_symbols ha).resolve_right ?_
      rintro rfl
      exact h hascii ha
    exact ⟨_, _, htext, readsString_joined hascii hsound left, rfl⟩

/-- Where no halves of a surrogate pair stand side by side, nothing is joined. -/
theorem joined_eq_self {as : List Symbol}
    (h : ∀ n m, isHighHalf n = true → isLowHalf m = true → ¬[.lone n, .lone m] <:+: as) :
    Text.joined as = as := by
  have htail : ∀ {a : Symbol} {rest : List Symbol}, (∀ n m, isHighHalf n = true →
      isLowHalf m = true → ¬[.lone n, .lone m] <:+: a :: rest) →
      ∀ n m, isHighHalf n = true → isLowHalf m = true → ¬[.lone n, .lone m] <:+: rest :=
    fun h n m hn hm hrest => h n m hn hm (hrest.trans (List.suffix_cons _ _).isInfix)
  fun_induction Text.joined as with
  | case1 n m rest hhalves ih =>
    obtain ⟨hhigh, hlow⟩ := Bool.and_eq_true_iff.mp hhalves
    exact absurd ⟨[], rest, rfl⟩ (h n m hhigh hlow)
  | case2 n m rest _ ih => rw [ih (htail h)]
  | case3 a rest _ ih => rw [ih (htail h)]
  | case4 => rfl

end Json

end ApiOutline
