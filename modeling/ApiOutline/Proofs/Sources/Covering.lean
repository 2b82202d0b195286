import ApiOutline.Proofs.Path.Names
import ApiOutline.Proofs.Wildcard
import ApiOutline.Sources

/-!
# What the patterns of a configuration cover

A pattern covers a path in one of three ways: it matches the path, it names a folder above it, or it
matches it once the parts `**/` are struck out. Only the second way goes on below what is covered.
The other two do so if the pattern ends with a run, since a run takes whatever follows, slashes too.

So what is below a covered path is covered as well if some pattern covers it as the name of a folder
or with a run at its end, and every pattern without marks is of this kind. A pattern that ends with
a plain character is not: of two paths below the same folder that end differently it matches at most
one (`coveredByAny_below`).
-/

namespace ApiOutline

namespace Text

/-! ### Ends of texts -/

theorem startsWith_iff {s start : String} :
    startsWith s start = true ↔ ∃ x, s = start ++ x := by
  rw [startsWith, List.isPrefixOf_iff_prefix]
  constructor
  · rintro ⟨cs, hcs⟩
    exact ⟨String.ofList cs, by rw [← String.toList_inj, String.toList_append, ← hcs,
      String.toList_ofList]⟩
  · rintro ⟨x, rfl⟩
    rw [String.toList_append]
    exact List.prefix_append _ _

/-- No copy is left of the character that was trimmed. -/
private theorem getLast?_trimEnd (s : String) (c : Char) :
    (trimEnd s c).toList.getLast? ≠ some c := by
  rw [trimEnd, String.toList_ofList]
  generalize s.toList = cs
  induction cs with
  | nil => simp [dropRight]
  | cons d ds ih =>
    rw [dropRight]
    split
    · split_ifs with hd
      · simp
      · intro h
        obtain rfl := Option.some.inj h
        simp at hd
    · next hne =>
      rw [List.getLast?_cons_of_ne_nil hne]
      exact ih

private theorem exists_eraseFrom_eq_append {part : List Char} {z c : Char}
    (hpart : part.getLast? = some z)
    (hc : z ≠ c) (cs : List Char) {skip : Nat} (hskip : skip ≤ cs.length) :
    ∃ front, eraseFrom part skip (cs ++ [c]) = front ++ [c] := by
  -- an occurrence ends with another character, so it ends before the last one
  have hlength : ∀ ds : List Char, part <+: ds ++ [c] → part.length ≤ ds.length := by
    intro ds hprefix
    rcases List.prefix_concat_iff.mp hprefix with heq | hprefix
    · rw [heq, List.getLast?_concat] at hpart
      exact absurd (Option.some.inj hpart).symm hc
    · exact hprefix.length_le
  have hne : part ≠ [] := by
    rintro rfl
    cases hpart
  induction cs generalizing skip with
  | nil =>
    obtain rfl : skip = 0 := Nat.le_zero.mp hskip
    have hnot : ¬part.isPrefixOf [c] = true := by
      intro hprefix
      have hzero := hlength [] (List.isPrefixOf_iff_prefix.mp hprefix)
      exact hne (List.eq_nil_of_length_eq_zero (Nat.le_zero.mp hzero))
    refine ⟨[], ?_⟩
    rw [List.nil_append, eraseFrom, if_neg hnot, eraseFrom_nil]
  | cons d ds ih =>
    cases skip with
    | succ skip => exact ih (Nat.le_of_succ_le_succ hskip)
    | zero =>
      rw [List.cons_append, eraseFrom]
      split_ifs with hprefix
      · have hle := hlength (d :: ds) (List.isPrefixOf_iff_prefix.mp hprefix)
        rw [List.length_cons] at hle
        exact ih (Nat.sub_le_of_le_add hle)
      · obtain ⟨front, hfront⟩ := ih (Nat.zero_le _)
        exact ⟨d :: front, by rw [hfront, List.cons_append]⟩

/-- A text keeps its last character when parts that end otherwise are struck out. -/
private theorem getLast?_erase {s part : String} {z c : Char}
    (hpart : part.toList.getLast? = some z)
    (hc : z ≠ c) (h : s.toList.getLast? = some c) :
    (erase s part).toList.getLast? = some c := by
  obtain ⟨cs, hcs⟩ := List.getLast?_eq_some_iff.mp h
  obtain ⟨front, hfront⟩ := exists_eraseFrom_eq_append hpart hc cs (Nat.zero_le _)
  rw [erase, String.toList_ofList, hcs, hfront, List.getLast?_concat]

private theorem mem_of_occursIn {part cs : List Char} (h : occursIn part cs = true) {c : Char}
    (hc : c ∈ part) : c ∈ cs := by
  induction cs with
  | nil =>
    rw [occursIn, List.isEmpty_iff] at h
    rw [h] at hc
    exact hc
  | cons d ds ih =>
    rw [occursIn, Bool.or_eq_true, List.isPrefixOf_iff_prefix] at h
    rcases h with hprefix | h
    · exact hprefix.subset hc
    · exact List.mem_cons_of_mem d (ih h)

end Text

namespace Sources

variable {pattern d path : String}

/-! ### Ways of covering -/

/-- A pattern as it is compared with paths: without slashes at its end. -/
def pruned (pattern : String) : String :=
  Text.trimEnd pattern '/'

/-- A path is the folder that a pattern names, or is below it. -/
def NamesAbove (pattern path : String) : Prop :=
  path = pruned pattern ∨ Text.startsWith path (pruned pattern ++ "/") = true

theorem covers_iff : covers pattern path = true ↔
    Wildcard.isMatch (pruned pattern) path = true ∨
      Text.startsWith path (pruned pattern ++ "/") = true ∨
      Text.contains (pruned pattern) "**/" = true ∧
        Wildcard.isMatch (Text.erase (pruned pattern) "**/") path = true := by
  rw [covers, Bool.or_eq_true, Bool.or_eq_true, Bool.and_eq_true, or_assoc]
  rfl

/-- What is named by a pattern is covered with everything below it. -/
theorem NamesAbove.covers_below (h : NamesAbove pattern d) (x : String) :
    covers pattern (d ++ "/" ++ x) = true := by
  refine covers_iff.mpr (.inr (.inl (Text.startsWith_iff.mpr ?_)))
  rcases h with rfl | h
  · exact ⟨x, rfl⟩
  · obtain ⟨y, rfl⟩ := Text.startsWith_iff.mp h
    exact ⟨y ++ "/" ++ x, by simp only [String.append_assoc]⟩

/-- Striking out the parts `**/` leaves the last character of a pattern. -/
theorem getLast?_erase_pruned (pattern : String) :
    (Text.erase (pruned pattern) "**/").toList.getLast? = (pruned pattern).toList.getLast? := by
  cases h : (pruned pattern).toList.getLast? with
  | none =>
    rw [List.getLast?_eq_none_iff] at h
    rw [Text.erase, h]
    rfl
  | some c =>
    have hslash : "**/".toList.getLast? = some '/' := by decide
    refine Text.getLast?_erase hslash ?_ h
    rintro rfl
    exact Text.getLast?_trimEnd pattern '/' h

/-- **A run at the end** of a pattern covers also what lies below. -/
theorem covers_below_of_run (hrun : (pruned pattern).toList.getLast? = some '*')
    (h : covers pattern d = true) (x : String) : covers pattern (d ++ "/" ++ x) = true := by
  rcases covers_iff.mp h with hmatch | hstart | ⟨hcontains, hmatch⟩
  · rw [String.append_assoc]
    exact covers_iff.mpr (.inl (Wildcard.isMatch_below hrun hmatch x))
  · exact NamesAbove.covers_below (.inr hstart) x
  · rw [String.append_assoc]
    rw [← getLast?_erase_pruned] at hrun
    exact covers_iff.mpr (.inr (.inr ⟨hcontains, Wildcard.isMatch_below hrun hmatch x⟩))

/-- **Without marks** a pattern covers what it names. -/
theorem covers_iff_of_hasMark (h : Wildcard.hasMark (pruned pattern) = false) :
    covers pattern path = true ↔ NamesAbove pattern path := by
  have hcontains : Text.contains (pruned pattern) "**/" = false := by
    rw [← Bool.not_eq_true]
    intro hcontains
    have hstar : '*' ∈ (pruned pattern).toList :=
      Text.mem_of_occursIn hcontains (by decide)
    exact absurd (List.any_eq_false.mp h '*' hstar) (by decide)
  rw [covers_iff, Wildcard.isMatch_iff_eq h, hcontains, NamesAbove]
  simp

/-- **A plain character at the end** of a pattern is the last one of what it matches, so if the
pattern covers everything below a path, then as the name of a folder. -/
theorem namesAbove_of_covers_below (hplain : Wildcard.EndsPlainly (pruned pattern))
    (h : ∀ x, covers pattern (d ++ "/" ++ x) = true) : NamesAbove pattern d := by
  obtain ⟨k, hascii, hslash, hk⟩ : ∃ k : Char, k.toNat < 0x80 ∧ '/' ≠ k ∧
      (pruned pattern).toList.getLast? ≠ some k := by
    by_cases ha : (pruned pattern).toList.getLast? = some 'a'
    · exact ⟨'b', by decide, by decide, by rw [ha]; decide⟩
    · exact ⟨'a', by decide, by decide, ha⟩
  have hcovers := h (String.singleton k)
  rw [String.append_assoc, covers_iff] at hcovers
  rcases hcovers with hmatch | hstart | ⟨-, hmatch⟩
  · exact absurd (Wildcard.eq_of_isMatch hplain hascii hmatch) hk
  · -- the slash after the name is not the last character, so it stands before what was added
    have hprefix : (pruned pattern).toList ++ ['/'] <+: d.toList ++ ['/'] ++ [k] := by
      simpa [Text.startsWith] using hstart
    rcases List.prefix_concat_iff.mp hprefix with heq | hprefix
    · exact absurd (List.cons.inj (List.append_inj' heq rfl).2).1 hslash
    · rcases List.prefix_concat_iff.mp hprefix with heq | hprefix
      · exact .inl (String.toList_inj.mp (List.append_inj' heq rfl).1.symm)
      · refine .inr ?_
        rw [Text.startsWith, List.isPrefixOf_iff_prefix, String.toList_append]
        exact hprefix
  · rw [← getLast?_erase_pruned] at hk
    refine absurd (Wildcard.eq_of_isMatch (fun c hc => ?_) hascii hmatch) hk
    rw [getLast?_erase_pruned]
    exact hplain c hc

/-! ### Below what is covered -/

/-- **Below a covered path** everything is covered if some pattern covers the path as the name of a
folder, or with a run at its end. A pattern without marks covers nothing in another way. Of a
pattern that ends with a plain character this is all that can be said: it covers everything below a
path exactly if it names the path or a folder above it. -/
theorem coveredByAny_below (patterns : List String) (d : String) :
    ((∃ pattern ∈ patterns, covers pattern d = true ∧
        (NamesAbove pattern d ∨ (pruned pattern).toList.getLast? = some '*')) →
      ∀ x, coveredByAny (d ++ "/" ++ x) patterns = true) ∧
    ∀ pattern,
      (Wildcard.hasMark (pruned pattern) = false →
        (covers pattern d = true ↔ NamesAbove pattern d)) ∧
      (Wildcard.EndsPlainly (pruned pattern) →
        ((∀ x, covers pattern (d ++ "/" ++ x) = true) ↔ NamesAbove pattern d)) := by
  refine ⟨?_, fun pattern => ⟨covers_iff_of_hasMark, fun hplain =>
    ⟨namesAbove_of_covers_below hplain, NamesAbove.covers_below⟩⟩⟩
  rintro ⟨pattern, hmem, hcovers, hways⟩ x
  refine List.any_eq_true.mpr ⟨pattern, hmem, ?_⟩
  rcases hways with hnames | hrun
  · exact hnames.covers_below x
  · exact covers_below_of_run hrun hcovers x

/-- A pattern for a folder with any folders above it covers that folder and nothing below it. -/
example : coveredByAny "__tests__" ["**/__tests__"] = true ∧
    coveredByAny "__tests__/a.ts" ["**/__tests__"] = false := by
  decide +kernel

end Sources

end ApiOutline
