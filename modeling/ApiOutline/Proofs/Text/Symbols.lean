import ApiOutline.Proofs.Disk.Places
import Mathlib.Data.List.Sort

/-!
# Symbols and characters

A text is spelled by its symbols, so what is a character among its symbols is one of its characters,
and texts with the same symbols are the same. A plain character spells itself wherever it stands,
at the end of a text as well (`exists_symbols_eq_append`).

The order of texts is that of the numbers of their symbols. It is transitive and total, and since
the symbols of texts are told apart by their numbers, of two different texts only one comes before
the other. So texts without repetition are sorted strictly (`pairwise_before_mergeSort`).
-/

namespace ApiOutline

namespace Text

variable {s t : String}

/-! ### What symbols spell -/

private theorem toList_eq_flatMap_symbols (s : String) :
    s.toList = (symbols s).flatMap Symbol.spelling := by
  conv_lhs => rw [← ofSymbols_symbols s, ofSymbols, String.toList_ofList]

theorem symbols_injective (h : symbols s = symbols t) : s = t := by
  rw [← ofSymbols_symbols s, h, ofSymbols_symbols]

/-- A character among the symbols of a text is one of its characters. -/
theorem mem_toList_of_mem_symbols {c : Char} (h : .char c ∈ symbols s) : c ∈ s.toList := by
  rw [toList_eq_flatMap_symbols, List.mem_flatMap]
  refine ⟨_, h, ?_⟩
  rw [Symbol.spelling]
  split_ifs with hc
  · rw [hc]
    exact List.mem_cons_self
  · exact List.mem_cons_self

/-- **The last symbol** of a text is a plain character exactly if that is its last character. -/
theorem exists_symbols_eq_append {c : Char} (h : s.toList.getLast? = some c) :
    ∃ as a, symbols s = as ++ [a] ∧ ∀ k : Char, k.toNat < 0x80 → (a = .char k ↔ k = c) := by
  obtain ⟨front, hfront⟩ := List.getLast?_eq_some_iff.mp h
  obtain ⟨as, a, hsymbols⟩ : ∃ as a, symbols s = as ++ [a] := by
    rcases List.eq_nil_or_concat' (symbols s) with hnil | hlast
    · rw [toList_eq_flatMap_symbols, hnil] at hfront
      simp at hfront
    · exact hlast
  refine ⟨as, a, hsymbols, fun k hk => ⟨?_, ?_⟩⟩
  · rintro rfl
    have hspelling : s.toList = as.flatMap Symbol.spelling ++ [k] := by
      rw [toList_eq_flatMap_symbols, hsymbols, List.flatMap_append, List.flatMap_singleton,
        Symbol.spelling, if_neg (ne_mark_of_ascii hk)]
    obtain ⟨-, hlast⟩ := List.append_inj' (hspelling.symm.trans hfront) rfl
    exact (List.cons.inj hlast).1
  · rintro rfl
    have hplain : symbolsOf [k] = [.char k] := by
      rw [symbolsOf.eq_def]
      simp only [ne_mark_of_ascii hk, if_false]
      rfl
    have hend : symbols s = symbolsOf front ++ [.char k] := by
      rw [symbols, hfront, symbolsOf_append_cons hk, hplain]
    obtain ⟨-, hlast⟩ := List.append_inj' (hsymbols.symm.trans hend) rfl
    exact (List.cons.inj hlast).1

/-- What begins with a plain character keeps its symbols when it is added to a text. -/
theorem symbols_append {c : Char} (hc : c.toNat < 0x80) (h : t.toList.head? = some c) :
    symbols (s ++ t) = symbols s ++ symbols t := by
  obtain ⟨cs, hcs⟩ := List.head?_eq_some_iff.mp h
  rw [symbols, symbols, symbols, String.toList_append, hcs, symbolsOf_append_cons hc]

/-- What a text holds as a lone surrogate is one. -/
private theorem isSurrogate_of_mem_symbols {unit : Nat} (h : .lone unit ∈ symbols s) :
    Symbol.isSurrogate unit = true := by
  rw [symbols] at h
  generalize s.toList = cs at h
  fun_induction symbolsOf cs with
  | case1 => cases h
  | case2 => cases List.mem_singleton.mp h
  | case3 ds ih => exact ih ((List.mem_cons.mp h).resolve_left (by simp))
  | case4 d ds hd told hunit ih =>
    rcases List.mem_cons.mp h with heq | h
    · unfold Symbol.unit? at hunit
      split_ifs at hunit with hsurrogate
      rw [Symbol.lone.inj heq, ← Option.some.inj hunit]
      exact hsurrogate.2
    · exact ih h
  | case5 d ds hd hunit ih => exact ih ((List.mem_cons.mp h).resolve_left (by simp))
  | case6 c cs hc ih => exact ih ((List.mem_cons.mp h).resolve_left (by simp))

/-- The symbols of texts are told apart by their numbers. -/
private theorem eq_of_code_eq {a b : Symbol} (ha : a ∈ symbols s) (hb : b ∈ symbols t)
    (h : a.code = b.code) : a = b := by
  -- a number is that of a mark without a meaning, or the symbol can be read off it
  have hread {s : String} {a : Symbol} (ha : a ∈ symbols s) :
      (if a.code = 0x110000 then .stray else Symbol.ofCode a.code) = a := by
    cases a with
    | char c =>
      have hvalid : c.toNat < 0xD800 ∨ 0xDFFF < c.toNat ∧ c.toNat < 0x110000 := c.valid
      have hsurrogate : ¬Symbol.isSurrogate c.toNat = true := by
        rw [Symbol.isSurrogate, decide_eq_true_eq]
        omega
      rw [Symbol.code, if_neg (by omega), Symbol.ofCode, if_neg hsurrogate, Char.ofNat_toNat]
    | lone unit =>
      have hsurrogate := isSurrogate_of_mem_symbols ha
      have hbound : 0xD800 ≤ unit ∧ unit < 0xE000 := by simpa [Symbol.isSurrogate] using hsurrogate
      rw [Symbol.code, if_neg (by omega), Symbol.ofCode, if_pos hsurrogate]
    | stray => rfl
  rw [← hread ha, ← hread hb, h]

/-! ### The order of texts -/

private theorem precedesOn_trans {as bs cs : List Symbol} (h : precedesOn as bs = true)
    (h' : precedesOn bs cs = true) : precedesOn as cs = true := by
  induction as generalizing bs cs with
  | nil => rfl
  | cons a as ih =>
    cases bs with
    | nil => cases h
    | cons b bs =>
      cases cs with
      | nil => cases h'
      | cons c cs =>
        simp only [precedesOn, Bool.or_eq_true, Bool.and_eq_true, decide_eq_true_eq,
          beq_iff_eq] at h h' ⊢
        rcases h with hlt | ⟨heq, h⟩
        · rcases h' with hlt' | ⟨heq', -⟩
          · exact .inl (hlt.trans hlt')
          · exact .inl (heq' ▸ hlt)
        · rcases h' with hlt' | ⟨heq', h'⟩
          · exact .inl (heq ▸ hlt')
          · exact .inr ⟨heq.trans heq', ih h h'⟩

private theorem precedesOn_total (as bs : List Symbol) :
    precedesOn as bs = true ∨ precedesOn bs as = true := by
  induction as generalizing bs with
  | nil => exact .inl rfl
  | cons a as ih =>
    cases bs with
    | nil => exact .inr rfl
    | cons b bs =>
      simp only [precedesOn, Bool.or_eq_true, Bool.and_eq_true, decide_eq_true_eq, beq_iff_eq]
      rcases Nat.lt_trichotomy a.code b.code with hlt | heq | hlt
      · exact .inl (.inl hlt)
      · rcases ih bs with h | h
        · exact .inl (.inr ⟨heq, h⟩)
        · exact .inr (.inr ⟨heq.symm, h⟩)
      · exact .inr (.inl hlt)

private theorem precedes_trans {a b c : String} (h : precedes a b = true)
    (h' : precedes b c = true) :
    precedes a c = true :=
  precedesOn_trans h h'

private theorem precedes_total (a b : String) : (precedes a b || precedes b a) = true := by
  rw [Bool.or_eq_true]
  exact precedesOn_total _ _

/-- **Sorted texts** come one before the other. -/
theorem pairwise_mergeSort (texts : List String) :
    (texts.mergeSort precedes).Pairwise fun a b => precedes a b = true :=
  @List.pairwise_mergeSort _ precedes (fun _ _ _ => precedes_trans) precedes_total texts

private theorem precedesOn_antisymm {as bs : List Symbol}
    (hcode : ∀ a ∈ as, ∀ b ∈ bs, a.code = b.code → a = b) (h : precedesOn as bs = true)
    (h' : precedesOn bs as = true) : as = bs := by
  induction as generalizing bs with
  | nil =>
    cases bs with
    | nil => rfl
    | cons b bs => cases h'
  | cons a as ih =>
    cases bs with
    | nil => cases h
    | cons b bs =>
      simp only [precedesOn, Bool.or_eq_true, Bool.and_eq_true, decide_eq_true_eq,
        beq_iff_eq] at h h'
      have heq : a.code = b.code := by omega
      have hrest : as = bs := by
        refine ih (fun c hc e he => ?_) (h.resolve_left (by omega)).2 (h'.resolve_left (by omega)).2
        exact hcode c (List.mem_cons_of_mem a hc) e (List.mem_cons_of_mem b he)
      rw [hcode a List.mem_cons_self b List.mem_cons_self heq, hrest]

/-- **Of two different texts** only one comes before the other. -/
theorem precedes_antisymm (h : precedes s t = true) (h' : precedes t s = true) : s = t :=
  symbols_injective (precedesOn_antisymm (fun _ ha _ hb => eq_of_code_eq ha hb) h h')

/-- A text comes before another one and is not the same. -/
def Before (a b : String) : Prop :=
  precedes b a = false

private theorem before_iff : Before s t ↔ precedes s t = true ∧ s ≠ t := by
  constructor
  · intro h
    have htotal := precedes_total s t
    rw [h, Bool.or_false] at htotal
    refine ⟨htotal, ?_⟩
    rintro rfl
    exact absurd (h.symm.trans htotal) nofun
  · rintro ⟨h, hne⟩
    exact Bool.eq_false_iff.mpr fun h' => hne (precedes_antisymm h h')

instance : Std.Irrefl Before where
  irrefl _ h := (before_iff.mp h).2 rfl

instance : Std.Antisymm Before where
  antisymm _ _ h h' := precedes_antisymm (before_iff.mp h).1 (before_iff.mp h').1

/-- **Texts without repetition** are sorted strictly. -/
theorem pairwise_before_mergeSort {texts : List String} (h : texts.Nodup) :
    (texts.mergeSort precedes).Pairwise Before :=
  (pairwise_mergeSort texts).imp₂ (fun _ _ hle hne => before_iff.mpr ⟨hle, hne⟩)
    ((List.mergeSort_perm texts precedes).nodup_iff.mpr h)

end Text

end ApiOutline
