import ApiOutline.Proofs.Text.Symbols
import ApiOutline.Wildcard
import Mathlib.Data.List.TakeWhile

/-!
# What wildcards match

Tokens are matched row by row; `Matches` says by one rule for each way in which a token can go on
what they match, and `accepts_iff` that this is the same. By the rules tokens in a row match what
can be cut into parts that they match (`matches_append_iff`).

A pattern is read from its beginning, but how it ends can be told from its last character: a
bracket that is closed ends with its closing mark, so any other last character is read by itself. A
pattern without marks is read as its own symbols, and matches only itself (`isMatch_iff_eq`).
-/

namespace ApiOutline

namespace Wildcard

/-! ### Rules for matching -/

/-- The tokens stand for exactly the given symbols. -/
inductive Matches : List Token → List Symbol → Prop
  | nil : Matches [] []
  | skip {ts : List Token} {as : List Symbol} (h : Matches ts as) : Matches (.anyRun :: ts) as
  | run {ts : List Token} {a : Symbol} {as : List Symbol} (h : Matches (.anyRun :: ts) as) :
      Matches (.anyRun :: ts) (a :: as)
  | one {t : Token} {ts : List Token} {a : Symbol} {as : List Symbol} (ha : t.accepts a = true)
      (h : Matches ts as) : Matches (t :: ts) (a :: as)

theorem Matches.accepts {ts : List Token} {as : List Symbol} (h : Matches ts as) :
    accepts ts as = true := by
  induction h with
  | nil => rfl
  | @skip ts as _ ih =>
    cases as with
    | nil => rw [accepts_cons_nil, ih]; rfl
    | cons a as => rw [accepts_anyRun_cons, ih, Bool.true_or]
  | run _ ih => rw [accepts_anyRun_cons, ih, Bool.or_true]
  | @one t ts a as ha _ ih =>
    have ht : t ≠ .anyRun := by
      rintro rfl
      cases ha
    rw [accepts_cons_cons ht, ha, ih]
    rfl

private theorem matches_of_accepts {ts : List Token} {as : List Symbol} (h : accepts ts as = true) :
    Matches ts as := by
  induction ts generalizing as with
  | nil =>
    rw [accepts_nil, List.isEmpty_iff] at h
    rw [h]
    exact .nil
  | cons t ts ih =>
    induction as with
    | nil =>
      rw [accepts_cons_nil, Bool.and_eq_true, decide_eq_true_eq] at h
      obtain ⟨rfl, h⟩ := h
      exact .skip (ih h)
    | cons a as ih' =>
      by_cases ht : t = .anyRun
      · subst ht
        rw [accepts_anyRun_cons, Bool.or_eq_true] at h
        rcases h with h | h
        · exact .skip (ih h)
        · exact .run (ih' h)
      · rw [accepts_cons_cons ht, Bool.and_eq_true] at h
        exact .one h.1 (ih h.2)

/-- **Tokens match** by the rules. -/
theorem accepts_iff {ts : List Token} {as : List Symbol} :
    accepts ts as = true ↔ Matches ts as :=
  ⟨matches_of_accepts, Matches.accepts⟩

/-! ### Tokens in a row -/

theorem Matches.append {ts us : List Token} {as bs : List Symbol} (h : Matches ts as)
    (h' : Matches us bs) : Matches (ts ++ us) (as ++ bs) := by
  induction h with
  | nil => exact h'
  | skip _ ih => exact .skip ih
  | run _ ih => exact .run ih
  | one ha _ ih => exact .one ha ih

/-- **Tokens in a row** match what can be cut so that each part is matched. -/
theorem matches_append_iff {ts us : List Token} {cs : List Symbol} :
    Matches (ts ++ us) cs ↔ ∃ as bs, cs = as ++ bs ∧ Matches ts as ∧ Matches us bs := by
  constructor
  · intro h
    induction ts generalizing cs with
    | nil => exact ⟨[], cs, rfl, .nil, h⟩
    | cons t ts ih =>
      rw [List.cons_append] at h
      -- a run is followed along the symbols that it takes
      induction cs with
      | nil =>
        cases h with
        | skip h =>
          obtain ⟨as, bs, heq, has, hbs⟩ := ih h
          exact ⟨as, bs, heq, .skip has, hbs⟩
      | cons c cs ih' =>
        cases h with
        | skip h =>
          obtain ⟨as, bs, heq, has, hbs⟩ := ih h
          exact ⟨as, bs, heq, .skip has, hbs⟩
        | run h =>
          obtain ⟨as, bs, rfl, has, hbs⟩ := ih' h
          exact ⟨c :: as, bs, rfl, .run has, hbs⟩
        | one hc h =>
          obtain ⟨as, bs, rfl, has, hbs⟩ := ih h
          exact ⟨c :: as, bs, rfl, .one hc has, hbs⟩
  · rintro ⟨as, bs, rfl, has, hbs⟩
    exact has.append hbs

/-- A run at the end goes on with whatever follows. -/
private theorem Matches.append_anyRun {ts : List Token} {as : List Symbol}
    (h : Matches (ts ++ [.anyRun]) as) (bs : List Symbol) :
    Matches (ts ++ [.anyRun]) (as ++ bs) := by
  have hrun (cs : List Symbol) : Matches [.anyRun] cs := by
    induction cs with
    | nil => exact .skip .nil
    | cons c cs ih => exact .run ih
  obtain ⟨front, back, rfl, hfront, -⟩ := matches_append_iff.mp h
  rw [List.append_assoc]
  exact hfront.append (hrun _)

/-- A token for one symbol at the end takes the last one. -/
private theorem Matches.accepts_last {ts : List Token} {t : Token} (ht : t ≠ .anyRun)
    {as : List Symbol} {a : Symbol} (h : Matches (ts ++ [t]) (as ++ [a])) :
    t.accepts a = true := by
  obtain ⟨front, back, heq, -, hback⟩ := matches_append_iff.mp h
  cases hback with
  | skip _ => exact absurd rfl ht
  | run _ => exact absurd rfl ht
  | one ha h =>
    cases h with
    | nil =>
      obtain ⟨-, hlast⟩ := List.append_inj' heq rfl
      rw [(List.cons.inj hlast).1]
      exact ha

/-! ### How a pattern ends -/

private theorem take_takeWhile_append_drop (p : Symbol → Bool) (as : List Symbol) :
    as = (as.takeWhile p).take 1 ++ as.drop ((as.takeWhile p).take 1).length :=
  List.prefix_append_drop ((List.take_prefix _ _).trans (List.takeWhile_prefix p))

/-- What a list holds is cut at where it stands first. -/
private theorem exists_eq_takeWhile_append {a : Symbol} {as : List Symbol} (h : a ∈ as) :
    ∃ rest, as = as.takeWhile (· != a) ++ a :: rest := by
  have hsplit := (List.takeWhile_append_dropWhile (p := (· != a)) (l := as)).symm
  cases hdrop : as.dropWhile (· != a) with
  | nil =>
    have hall := List.dropWhile_eq_nil_iff.mp hdrop a h
    simp at hall
  | cons b rest =>
    have hb : (b != a) = false := by
      have hhead := List.head?_dropWhile_not (· != a) as
      rw [hdrop] at hhead
      exact hhead
    obtain rfl : b = a := by simpa using hb
    exact ⟨rest, hdrop ▸ hsplit⟩

/-- A closed bracket ends with its closing mark. -/
private theorem exists_eq_of_bracketInside {as inside : List Symbol}
    (h : bracketInside as = some inside) :
    ∃ rest, as = inside ++ .char ']' :: rest := by
  rw [bracketInside] at h
  split at h
  · next hclosed =>
    obtain ⟨rest, hrest⟩ := exists_eq_takeWhile_append (List.contains_iff_mem.mp hclosed)
    refine ⟨rest, ?_⟩
    rw [← Option.some.inj h, List.append_assoc, ← hrest, List.append_assoc,
      ← take_takeWhile_append_drop, ← take_takeWhile_append_drop]
  · cases h

/-- The first symbol of a pattern gives a token, alone or with the bracket that it opens. -/
private theorem exists_tokensFrom_eq_cons (a : Symbol) (as : List Symbol) :
    ∃ t skip, tokensFrom 0 (a :: as) = t :: tokensFrom skip as ∧
      (skip = 0 ∨ ∃ inside, bracketInside as = some inside ∧ skip = inside.length + 1) := by
  rw [tokensFrom.eq_def]
  split
  · next heq => cases heq
  · next heq _ => cases heq
  · next heq => exact ⟨_, 0, by rw [(List.cons.inj heq).2], .inl rfl⟩
  · next heq => exact ⟨_, 0, by rw [(List.cons.inj heq).2], .inl rfl⟩
  · next heq =>
    rw [(List.cons.inj heq).2]
    split
    · next inside hinside => exact ⟨_, _, rfl, .inr ⟨inside, hinside, rfl⟩⟩
    · exact ⟨_, 0, rfl, .inl rfl⟩
  · next heq => exact ⟨_, 0, by rw [(List.cons.inj heq).2], .inl rfl⟩

/-- A symbol that is no mark, and opens no bracket, stands for itself. -/
private theorem tokensFrom_cons_literal {a : Symbol} {as : List Symbol}
    (hrun : a ≠ .char '*') (hone : a ≠ .char '?')
    (hopen : a = .char '[' → bracketInside as = none) :
    tokensFrom 0 (a :: as) = .literal a :: tokensFrom 0 as := by
  rw [tokensFrom.eq_def]
  split
  · next heq => cases heq
  · next heq _ => cases heq
  · next heq => exact absurd (List.cons.inj heq).1 hrun
  · next heq => exact absurd (List.cons.inj heq).1 hone
  · next heq =>
    obtain ⟨rfl, rfl⟩ := List.cons.inj heq
    rw [hopen rfl]
  · next heq =>
    obtain ⟨rfl, rfl⟩ := List.cons.inj heq
    rfl

/-- **The last symbol** of a pattern is read by itself unless it closes a bracket. -/
theorem exists_tokensFrom_eq_append {a : Symbol} (ha : a ≠ .char ']') (as : List Symbol)
    {skip : Nat} (hskip : skip ≤ as.length) :
    ∃ front, tokensFrom skip (as ++ [a]) = front ++ tokensFrom 0 [a] := by
  induction as generalizing skip with
  | nil =>
    obtain rfl : skip = 0 := Nat.le_zero.mp hskip
    exact ⟨[], rfl⟩
  | cons b bs ih =>
    cases skip with
    | succ skip => exact ih (Nat.le_of_succ_le_succ hskip)
    | zero =>
      obtain ⟨t, skip, htokens, hnext⟩ := exists_tokensFrom_eq_cons b (bs ++ [a])
      have hle : skip ≤ bs.length := by
        rcases hnext with rfl | ⟨inside, hinside, rfl⟩
        · exact Nat.zero_le _
        -- the closing mark is not the last symbol, so it is one of those before
        obtain ⟨rest, hrest⟩ := exists_eq_of_bracketInside hinside
        cases rest with
        | nil =>
          obtain ⟨-, hlast⟩ := List.append_inj' hrest rfl
          exact absurd (List.cons.inj hlast).1 ha
        | cons c cs =>
          have hlengths := congrArg List.length hrest
          simp only [List.length_append, List.length_cons, List.length_nil] at hlengths
          omega
      obtain ⟨front, hfront⟩ := ih hle
      exact ⟨t :: front, by rw [List.cons_append, htokens, hfront, List.cons_append]⟩

private theorem exists_mergeRuns_eq_append (ts : List Token) (t : Token) :
    ∃ front, mergeRuns (ts ++ [t]) = front ++ [t] := by
  fun_induction mergeRuns ts with
  | case1 ts ih =>
    obtain ⟨front, hfront⟩ := ih
    exact ⟨front, by rw [← hfront]; rfl⟩
  | case2 u us hne ih =>
    obtain ⟨front, hfront⟩ := ih
    rw [List.cons_append, mergeRuns.eq_def]
    split
    · next heq =>
      obtain ⟨rfl, htail⟩ := List.cons.inj heq
      cases us with
      | nil =>
        obtain ⟨rfl, rfl⟩ := List.cons.inj htail
        exact ⟨[], rfl⟩
      | cons v vs =>
        obtain ⟨rfl, -⟩ := List.cons.inj htail
        exact absurd rfl (hne vs rfl)
    · next heq =>
      obtain ⟨rfl, rfl⟩ := List.cons.inj heq
      exact ⟨u :: front, by rw [hfront, List.cons_append]⟩
    · next heq => cases heq
  | case3 => exact ⟨[], by cases t <;> rfl⟩

/-- A pattern that ends with a run can be told from its last character. -/
private theorem exists_tokens_eq_append_anyRun {t : String} (h : t.toList.getLast? = some '*') :
    ∃ ts, tokens t = ts ++ [.anyRun] := by
  obtain ⟨as, a, hsymbols, hlast⟩ := Text.exists_symbols_eq_append h
  obtain rfl : a = .char '*' := (hlast '*' (by decide)).mpr rfl
  have hne : Symbol.char '*' ≠ .char ']' := by decide
  obtain ⟨front, hfront⟩ := exists_tokensFrom_eq_append hne as (Nat.zero_le _)
  rw [tokens, hsymbols, hfront]
  exact exists_mergeRuns_eq_append front .anyRun

/-- The last character of a pattern is neither a mark for other symbols nor one that may close a
bracket. -/
def EndsPlainly (t : String) : Prop :=
  ∀ c ∈ ['*', '?', ']'], t.toList.getLast? ≠ some c

/-- Such a pattern is empty, or it ends with a token for its last symbol. -/
private theorem exists_tokens_eq_append_literal {t : String} {c : Char}
    (h : t.toList.getLast? = some c)
    (hplain : EndsPlainly t) : ∃ ts a, tokens t = ts ++ [.literal a] ∧
      ∀ k : Char, k.toNat < 0x80 → (a = .char k ↔ k = c) := by
  obtain ⟨as, a, hsymbols, hlast⟩ := Text.exists_symbols_eq_append h
  have hascii : ∀ k ∈ ['*', '?', ']'], k.toNat < 0x80 := by simp
  have hne : ∀ k ∈ ['*', '?', ']'], a ≠ .char k := by
    rintro k hk rfl
    exact hplain k hk (((hlast k (hascii k hk)).mp rfl) ▸ h)
  have hend : tokensFrom 0 [a] = [.literal a] :=
    tokensFrom_cons_literal (hne '*' (by decide)) (hne '?' (by decide)) fun _ => rfl
  obtain ⟨front, hfront⟩ := exists_tokensFrom_eq_append (hne ']' (by decide)) as (Nat.zero_le _)
  obtain ⟨ts, hts⟩ := exists_mergeRuns_eq_append front (.literal a)
  exact ⟨ts, a, by rw [tokens, hsymbols, hfront, hend, hts], hlast⟩

/-! ### Texts that are matched -/

/-- **A run at the end** of a pattern matches also what lies below. -/
theorem isMatch_below {t d : String} (ht : t.toList.getLast? = some '*')
    (h : isMatch t d = true) (x : String) : isMatch t (d ++ ("/" ++ x)) = true := by
  obtain ⟨ts, hts⟩ := exists_tokens_eq_append_anyRun ht
  have hsymbols : Text.symbols (d ++ ("/" ++ x)) = Text.symbols d ++ Text.symbols ("/" ++ x) :=
    Text.symbols_append (show '/'.toNat < 0x80 by decide) (by simp)
  rw [isMatch, hts, accepts_iff] at h ⊢
  rw [hsymbols]
  exact h.append_anyRun _

/-- **A plain character at the end** of a pattern is the last one of what is matched. -/
theorem eq_of_isMatch {t d : String} {k : Char} (ht : EndsPlainly t) (hk : k.toNat < 0x80)
    (h : isMatch t (d ++ ("/" ++ String.singleton k)) = true) : t.toList.getLast? = some k := by
  have hlast : (d ++ ("/" ++ String.singleton k)).toList.getLast? = some k := by simp
  obtain ⟨as, a, hsymbols, ha⟩ := Text.exists_symbols_eq_append hlast
  obtain rfl : a = .char k := (ha k hk).mpr rfl
  rw [isMatch, hsymbols, accepts_iff] at h
  cases hc : t.toList.getLast? with
  | none =>
    rw [List.getLast?_eq_none_iff] at hc
    rw [tokens, Text.symbols, hc] at h
    -- an empty pattern matches no symbols
    cases as <;> cases h
  | some c =>
    obtain ⟨ts, b, hts, hb⟩ := exists_tokens_eq_append_literal hc ht
    rw [hts] at h
    have hone : Token.literal b ≠ .anyRun := by simp
    have haccepts := h.accepts_last hone
    rw [Token.accepts, beq_iff_eq] at haccepts
    rw [(hb k hk).mp haccepts]

/-! ### Patterns without marks -/

private theorem tokensFrom_of_not_mem {as : List Symbol}
    (h : ∀ c ∈ ['*', '?', '['], Symbol.char c ∉ as) : tokensFrom 0 as = as.map .literal := by
  induction as with
  | nil => rfl
  | cons a as ih =>
    have hne : ∀ c ∈ ['*', '?', '['], a ≠ .char c := by
      rintro c hc rfl
      exact h c hc List.mem_cons_self
    rw [tokensFrom_cons_literal (hne '*' (by decide)) (hne '?' (by decide))
      fun hopen => absurd hopen (hne '[' (by decide)),
      ih fun c hc hmem => h c hc (List.mem_cons_of_mem _ hmem), List.map_cons]

private theorem mergeRuns_map_literal (as : List Symbol) :
    mergeRuns (as.map .literal) = as.map .literal := by
  induction as with
  | nil => rfl
  | cons a as ih => rw [List.map_cons, mergeRuns, ih]; exact nofun

private theorem matches_map_literal_iff {as bs : List Symbol} :
    Matches (as.map .literal) bs ↔ bs = as := by
  constructor
  · intro h
    induction as generalizing bs with
    | nil =>
      cases h with
      | nil => rfl
    | cons a as ih =>
      cases h with
      | one ha h => rw [ih h, ← beq_iff_eq.mp ha]
  · rintro rfl
    induction bs with
    | nil => exact .nil
    | cons b bs ih => exact .one (beq_self_eq_true b) ih

/-- **A pattern without marks** matches itself and nothing else. -/
theorem isMatch_iff_eq {t s : String} (h : hasMark t = false) : isMatch t s = true ↔ s = t := by
  have hmarks : ∀ c ∈ ['*', '?', '['], Symbol.char c ∉ Text.symbols t := by
    intro c hc hmem
    have hall : ∀ k ∈ ['*', '?', '['], (k == '*' || k == '?' || k == '[') = true := by simp
    exact List.any_eq_false.mp h c (Text.mem_toList_of_mem_symbols hmem) (hall c hc)
  rw [isMatch, tokens, tokensFrom_of_not_mem hmarks, mergeRuns_map_literal, accepts_iff,
    matches_map_literal_iff]
  exact ⟨Text.symbols_injective, fun heq => by rw [heq]⟩

end Wildcard

end ApiOutline
