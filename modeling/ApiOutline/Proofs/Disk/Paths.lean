import ApiOutline.Disk.Basic
import Mathlib.Data.Set.Finite.List

/-!
# The paths of a disk

A disk takes paths of at most `Disk.maxPath` bytes. Every symbol of a path takes at least one byte
and is spelled by at most two characters, so the texts that are paths of files are bounded in
length, and there are finitely many of them (`finite_isFile`). This is what ends a search that
never looks at one path twice, also where one file has several spellings: nothing is said here
about spellings that lead to the same file.
-/

namespace ApiOutline

namespace Disk

private theorem symbolBytes_ne_nil (a : Symbol) : symbolBytes a ≠ [] := by
  have hcode (n : Nat) : Utf8.encodeCode n ≠ [] := by
    rw [Utf8.encodeCode]
    split_ifs <;> exact List.cons_ne_nil _ _
  cases a with
  | lone unit =>
    rw [symbolBytes]
    split_ifs
    · exact List.cons_ne_nil _ _
    · exact hcode unit
  | char c => exact hcode _
  | stray => exact hcode _

/-- A path has at most as many symbols as bytes. -/
private theorem length_symbols_le_byteSize (p : String) : (Text.symbols p).length ≤ byteSize p := by
  rw [byteSize, pathBytes, List.length_flatMap]
  induction Text.symbols p with
  | nil => exact le_rfl
  | cons a as ih =>
    have ha : 0 < (symbolBytes a).length := List.length_pos_iff.mpr (symbolBytes_ne_nil a)
    simp only [List.length_cons, List.map_cons, List.sum_cons]
    omega

/-- A symbol is spelled by at most two characters. -/
private theorem length_le_two_mul_symbols (p : String) :
    p.toList.length ≤ 2 * (Text.symbols p).length := by
  have hp : p.toList = (Text.symbols p).flatMap Symbol.spelling := by
    conv_lhs => rw [← Text.ofSymbols_symbols p]
    rw [Text.ofSymbols, String.toList_ofList]
  rw [hp, List.length_flatMap]
  induction Text.symbols p with
  | nil => exact le_rfl
  | cons a as ih =>
    have ha : a.spelling.length ≤ 2 := by
      cases a with
      | char c =>
        rw [Symbol.spelling]
        split_ifs <;> simp
      | lone unit => exact le_rfl
      | stray => exact Nat.le_succ 1
    simp only [List.length_cons, List.map_cons, List.sum_cons]
    omega

/-- Every character of plain text is a symbol. -/
theorem symbols_of_ascii {p : String} (h : ∀ c ∈ p.toList, c.toNat < 0x80) :
    Text.symbols p = p.toList.map .char := by
  rw [Text.symbols]
  generalize p.toList = cs at h
  induction cs with
  | nil => rfl
  | cons c cs ih =>
    have hc : c ≠ Symbol.mark := by
      rintro rfl
      exact absurd (h _ List.mem_cons_self) (by decide)
    rw [Text.symbolsOf.eq_def]
    simp only [hc, if_false, List.map_cons, ih fun e he => h e (List.mem_cons_of_mem c he)]

/-- Plain text takes one byte for each character. -/
private theorem byteSize_of_ascii {p : String} (h : ∀ c ∈ p.toList, c.toNat < 0x80) :
    byteSize p = p.toList.length := by
  rw [byteSize, pathBytes, symbols_of_ascii h, List.length_flatMap, List.map_map]
  generalize p.toList = cs at h
  induction cs with
  | nil => rfl
  | cons c cs ih =>
    have hc : (symbolBytes (.char c)).length = 1 := by
      change (Utf8.encodeCode c.toNat).length = 1
      rw [Utf8.encodeCode, if_pos (h c List.mem_cons_self)]
      rfl
    rw [List.map_cons, List.sum_cons, ih fun e he => h e (List.mem_cons_of_mem c he),
      Function.comp_apply, hc, List.length_cons, Nat.add_comm]

/-- A plain path that is not too long can be handed to the disk. -/
theorem refusal?_of_ascii {p : String} (hne : p ≠ "")
    (h : ∀ c ∈ p.toList, c.toNat < 0x80 ∧ c ≠ Char.ofNat 0) (hlength : p.toList.length ≤ maxPath) :
    refusal? p = none := by
  have hascii : ∀ c ∈ p.toList, c.toNat < 0x80 := fun c hc => (h c hc).1
  have hwritable : unwritable? p = none := by
    refine unwritableFrom_eq_none (fun a ha => ?_) 0
    rw [symbols_of_ascii hascii] at ha
    obtain ⟨c, -, rfl⟩ := List.mem_map.mp ha
    rfl
  have hzero : ¬p.toList.contains (Char.ofNat 0) = true := by
    rw [List.contains_iff_mem]
    exact fun hmem => (h _ hmem).2 rfl
  rw [refusal?, hwritable, if_neg (by simp), if_neg hzero, if_neg hne,
    if_neg (by rw [byteSize_of_ascii hascii]; omega)]

/-- What stands at a path is found only if the path can be handed to the disk. -/
theorem refusal?_eq_none_of_find {d : Disk} {p : String} {item : Item} (h : d.find p = .ok item) :
    refusal? p = none := by
  cases hr : refusal? p with
  | none => rfl
  | some cause =>
    rw [find, locate, hr] at h
    cases h

theorem byteSize_le_maxPath {p : String} (h : refusal? p = none) : byteSize p ≤ maxPath := by
  rw [refusal?] at h
  split_ifs at h with _ _ _ hsize
  exact Nat.le_of_not_lt hsize

theorem exists_find_of_isFile {d : Disk} {p : String} (h : d.isFile p = true) :
    ∃ contents, d.find p = .ok (.file contents) := by
  rw [isFile] at h
  split at h
  · next item hfind =>
    cases item with
    | file contents => exact ⟨contents, hfind⟩
    | folder entries => cases h
    | link target => cases h
  · cases h

/-- The path of a file is bounded in length. -/
private theorem length_le_of_isFile {d : Disk} {p : String} (h : d.isFile p = true) :
    p.toList.length ≤ 2 * maxPath := by
  obtain ⟨contents, hfind⟩ := exists_find_of_isFile h
  have hsize := byteSize_le_maxPath (refusal?_eq_none_of_find hfind)
  have hsymbols := length_symbols_le_byteSize p
  have hchars := length_le_two_mul_symbols p
  omega

private theorem finite_char : Finite Char := by
  have hlt (c : Char) : c.toNat < 0x110000 := by
    rcases c.valid with h | ⟨-, h⟩
    · exact lt_trans h (by decide)
    · exact h
  refine Finite.of_injective (fun c : Char => (⟨c.toNat, hlt c⟩ : Fin 0x110000)) fun a b hab => ?_
  rw [← Char.ofNat_toNat a, ← Char.ofNat_toNat b, Fin.mk.inj hab]

/-- **There are finitely many paths of files.** -/
theorem finite_isFile (d : Disk) : {p : String | d.isFile p = true}.Finite := by
  have := finite_char
  have hbounded : {cs : List Char | cs.length ≤ 2 * maxPath}.Finite :=
    List.finite_length_le Char (2 * maxPath)
  -- texts are as many as the lists of their characters
  refine (hbounded.preimage (Function.Injective.injOn fun a b => String.toList_inj.mp)).subset ?_
  intro p hp
  exact length_le_of_isFile hp

end Disk

end ApiOutline
