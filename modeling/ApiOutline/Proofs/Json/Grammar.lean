import ApiOutline.Json.Reader
import ApiOutline.Proofs.Json.Scalars
import ApiOutline.Proofs.Outcome
import Mathlib.Data.List.Infix

/-!
# What is read as JSON

The readers of values, items and fields call one another under a bound on their nesting, which no
text can reach. `Reads` says without that bound what they read: from which characters, in how much
room for nested containers, which part of a document, and what is left then. It has one rule for
each way in which a part is read to its end, and none for what is refused. `ReadsString` does so for
the inside of a string.

A part is read by these rules exactly when the readers read it (`readString_eq_ok_iff`,
`reads_of_readers`, `Reads.readBy`), so a statement about all texts that are read is an induction on
the rules, and to show that a text is read is to follow them. Of a text as a whole that is
`readWithin_eq_ok_iff`. Scalars are left to their reader; here it is only said that they take at
least one character.
-/

namespace ApiOutline

namespace Json

/-! ### Strings -/

/-- The inside of a string, up to and with its closing quote, is read as some characters. -/
inductive ReadsString : List Char → List Char → List Char → Prop
  | close (left : List Char) : ReadsString ('"' :: left) [] left
  | char {c : Char} {cs s left : List Char} (hc : c ≠ '"' ∧ c ≠ '\\') (hspace : 0x20 ≤ c.toNat)
      (h : ReadsString cs s left) : ReadsString (c :: cs) (c :: s) left
  | escape {e c : Char} {cs s left : List Char} (he : escaped? e = some c)
      (h : ReadsString cs s left) : ReadsString ('\\' :: e :: cs) (c :: s) left
  | unit {a b c d : Char} {n : Nat} {cs s left : List Char} (hn : hexFour? a b c d = some n)
      (hlone : secondHalf? n cs = .ok none) (h : ReadsString cs s left) :
      ReadsString ('\\' :: 'u' :: a :: b :: c :: d :: cs) ((Symbol.ofCode n).spelling ++ s) left
  | pair {a b c d w x y z : Char} {n m : Nat} {cs s left : List Char}
      (hn : hexFour? a b c d = some n) (hhigh : isHighHalf n = true)
      (hm : hexFour? w x y z = some m) (hlow : isLowHalf m = true) (h : ReadsString cs s left) :
      ReadsString ('\\' :: 'u' :: a :: b :: c :: d :: '\\' :: 'u' :: w :: x :: y :: z :: cs)
        ((Symbol.ofCode (pairCode n m)).spelling ++ s) left

private theorem precededBy_eq_ok_iff {head s left : List Char}
    {x : Except Stop (List Char × List Char)} :
    precededBy head x = .ok (s, left) ↔ ∃ rest, x = .ok (rest, left) ∧ s = head ++ rest := by
  rw [precededBy, Except.map_eq_ok_iff]
  constructor
  · rintro ⟨⟨rest, left'⟩, hx, heq⟩
    obtain ⟨rfl, rfl⟩ := Prod.mk.inj heq
    exact ⟨rest, hx, rfl⟩
  · rintro ⟨rest, hx, rfl⟩
    exact ⟨_, hx, rfl⟩

theorem secondHalf?_of_ne {n : Nat} {cs : List Char} (h : ∀ rest, cs ≠ '\\' :: 'u' :: rest) :
    secondHalf? n cs = .ok none := by
  rw [secondHalf?.eq_def]
  split
  · next h => exact absurd rfl (h _)
  · rfl

/-- A second half is taken where its escape follows a first half, before anything else. -/
private theorem secondHalf?_eq_some {n m : Nat} {cs : List Char}
    (h : secondHalf? n cs = .ok (some m)) :
    ∃ w x y z after, cs = '\\' :: 'u' :: w :: x :: y :: z :: after ∧ isHighHalf n = true ∧
      hexFour? w x y z = some m ∧ isLowHalf m = true := by
  rw [secondHalf?.eq_def] at h
  split at h
  · next w x y z after =>
    by_cases hcond : (!isHighHalf n || after.isEmpty) = true
    · rw [if_pos hcond] at h
      cases h
    rw [if_neg hcond] at h
    have hhigh : isHighHalf n = true := by
      by_contra hn
      exact hcond (by simp [hn])
    split at h
    · cases h
    · next m' hm =>
      by_cases hlow : isLowHalf m' = true
      · rw [if_pos hlow] at h
        obtain rfl := Option.some.inj (Except.ok.inj h)
        exact ⟨w, x, y, z, after, rfl, hhigh, hm, hlow⟩
      · rw [if_neg hlow] at h
        cases h
  · cases h

private theorem readsString_of_readString {opening cs s left : List Char}
    (h : readString opening cs = .ok (s, left)) : ReadsString cs s left := by
  fun_induction readString opening cs generalizing s with
  | case2 rest =>
    obtain ⟨rfl, rfl⟩ := Prod.mk.inj (Except.ok.inj h)
    exact .close _
  | case7 a b c d after _ n hn hlone ih =>
    obtain ⟨rest, hrest, rfl⟩ := precededBy_eq_ok_iff.mp h
    exact .unit hn hlone (ih hrest)
  | case8 a b c d n hn m c₁ c₂ c₃ c₄ c₅ c₆ rest _ hhalf ih =>
    obtain ⟨after, hafter, hs⟩ := precededBy_eq_ok_iff.mp h
    rw [hs]
    obtain ⟨w, x, y, z, rest', heq, hhigh, hm, hlow⟩ := secondHalf?_eq_some hhalf
    simp only [List.cons.injEq] at heq
    obtain ⟨rfl, rfl, rfl, rfl, rfl, rfl, rfl⟩ := heq
    exact .pair hn hhigh hm hlow (ih hafter)
  | case11 e rest _ c hc ih =>
    obtain ⟨after, hafter, rfl⟩ := precededBy_eq_ok_iff.mp h
    exact .escape hc (ih hafter)
  | case14 c rest hquote hslash hspace ih =>
    obtain ⟨after, hafter, rfl⟩ := precededBy_eq_ok_iff.mp h
    exact .char ⟨hquote, hslash⟩ (Nat.le_of_not_lt hspace) (ih hafter)
  | _ => cases h

/-- Something is always left to read before a string ends. -/
theorem ReadsString.isEmpty_eq_false {cs s left : List Char} (h : ReadsString cs s left) :
    cs.isEmpty = false := by
  cases h <;> rfl

theorem ReadsString.readString {cs s left : List Char} (h : ReadsString cs s left)
    (opening : List Char) : readString opening cs = .ok (s, left) := by
  induction h with
  | close left => rfl
  | char hc hspace _ ih =>
    rw [readString.eq_7 _ _ _ hc.1 hc.2, if_neg (Nat.not_lt.mpr hspace), ih]
    rfl
  | @escape e c cs s left he _ ih =>
    have hne : e ≠ 'u' := by
      rintro rfl
      cases he
    rw [readString.eq_6 _ _ _ hne, he]
    dsimp only
    rw [ih]
    rfl
  | unit hn hlone h ih =>
    rw [readString.eq_4, if_neg (by rw [h.isEmpty_eq_false]; decide), hn]
    dsimp only
    rw [hlone]
    dsimp only
    rw [ih]
    rfl
  | pair hn hhigh hm hlow h ih =>
    rw [readString.eq_4, if_neg (by simp), hn]
    dsimp only
    rw [secondHalf?, if_neg (by rw [hhigh, h.isEmpty_eq_false]; decide), hm]
    dsimp only
    rw [if_pos hlow]
    dsimp only
    rw [ih]
    rfl

/-- **Strings are read** by the rules, wherever they began. -/
theorem readString_eq_ok_iff {opening cs s left : List Char} :
    readString opening cs = .ok (s, left) ↔ ReadsString cs s left :=
  ⟨readsString_of_readString, fun h => h.readString opening⟩

theorem ReadsString.length_lt {cs s left : List Char} (h : ReadsString cs s left) :
    left.length < cs.length := by
  induction h <;> simp only [List.length_cons] at * <;> omega

/-! ### Parts of a document -/

/-- What is read of a document: a value, or what is left of a container with at least one item. -/
inductive Part where
  | value (v : Json)
  | items (items : List Json)
  | fields (fields : Fields)

/-- The characters at hand begin with a part of a document, in room for so many nested containers,
and end with what is left. -/
inductive Reads : Nat → List Char → Part → List Char → Prop
  | string {room : Nat} {cs s left : List Char} (h : ReadsString cs s left) :
      Reads room ('"' :: cs) (.value (.str (String.ofList s))) left
  | emptyArray {room : Nat} {cs left : List Char} (h : skipSpace cs = ']' :: left) :
      Reads (room + 1) ('[' :: cs) (.value (.arr [])) left
  | array {room : Nat} {cs left : List Char} {items : List Json}
      (h : Reads room (skipSpace cs) (.items items) left) :
      Reads (room + 1) ('[' :: cs) (.value (.arr items)) left
  | emptyObject {room : Nat} {cs left : List Char} (h : skipSpace cs = '\x7d' :: left) :
      Reads (room + 1) ('\x7b' :: cs) (.value (.obj [])) left
  | object {room : Nat} {cs left : List Char} {fields : Fields}
      (h : Reads room (skipSpace cs) (.fields fields) left) :
      Reads (room + 1) ('\x7b' :: cs) (.value (.obj (Fields.putAll [] fields))) left
  | scalar {room : Nat} {cs left : List Char} {v : Json} (h : readScalar cs = .ok (v, left)) :
      Reads room cs (.value v) left
  | lastItem {room : Nat} {cs after left : List Char} {v : Json}
      (hv : Reads room cs (.value v) after) (hend : skipSpace after = ']' :: left) :
      Reads room cs (.items [v]) left
  | item {room : Nat} {cs after next left : List Char} {v : Json} {items : List Json}
      (hv : Reads room cs (.value v) after) (hcomma : skipSpace after = ',' :: next)
      (hitems : Reads room (skipSpace next) (.items items) left) :
      Reads room cs (.items (v :: items)) left
  | lastField {room : Nat} {cs name after body rest left : List Char} {v : Json}
      (hname : ReadsString cs name after) (hcolon : skipSpace after = ':' :: body)
      (hv : Reads room (skipSpace body) (.value v) rest)
      (hend : skipSpace rest = '\x7d' :: left) :
      Reads room ('"' :: cs) (.fields [(String.ofList name, v)]) left
  | field {room : Nat} {cs name after body rest next left : List Char} {v : Json}
      {fields : Fields} (hname : ReadsString cs name after) (hcolon : skipSpace after = ':' :: body)
      (hv : Reads room (skipSpace body) (.value v) rest) (hcomma : skipSpace rest = ',' :: next)
      (hfields : Reads room (skipSpace next) (.fields fields) left) :
      Reads room ('"' :: cs) (.fields ((String.ofList name, v) :: fields)) left

/-! ### What the readers read -/

private theorem reads_of_readValue_succ {fuel : Nat}
    (hitems : ∀ {room cs items left}, readItems fuel room cs = .ok (items, left) →
      Reads room cs (.items items) left)
    (hfields : ∀ {room cs fields left}, readFields fuel room cs = .ok (fields, left) →
      Reads room cs (.fields fields) left)
    {room : Nat} {cs left : List Char} {v : Json}
    (h : readValue (fuel + 1) room cs = .ok (v, left)) : Reads room cs (.value v) left := by
  rw [readValue.eq_def] at h
  dsimp only at h
  split at h
  · -- a string
    obtain ⟨⟨s, left⟩, hs, heq⟩ := Except.map_eq_ok_iff.mp h
    obtain ⟨rfl, rfl⟩ := Prod.mk.inj heq
    exact .string (readString_eq_ok_iff.mp hs)
  · -- an array
    obtain - | room := room
    · cases h
    rw [if_neg (Nat.succ_ne_zero room)] at h
    split at h
    · next hclosed =>
      obtain ⟨rfl, rfl⟩ := Prod.mk.inj (Except.ok.inj h)
      exact .emptyArray hclosed
    · obtain ⟨⟨items, left⟩, hread, heq⟩ := Except.map_eq_ok_iff.mp h
      obtain ⟨rfl, rfl⟩ := Prod.mk.inj heq
      exact .array (hitems hread)
  · -- an object
    obtain - | room := room
    · cases h
    rw [if_neg (Nat.succ_ne_zero room)] at h
    split at h
    · next hclosed =>
      obtain ⟨rfl, rfl⟩ := Prod.mk.inj (Except.ok.inj h)
      exact .emptyObject hclosed
    · obtain ⟨⟨fields, left⟩, hread, heq⟩ := Except.map_eq_ok_iff.mp h
      obtain ⟨rfl, rfl⟩ := Prod.mk.inj heq
      exact .object (hfields hread)
  · exact .scalar h

private theorem reads_of_readItems_succ {fuel : Nat}
    (hvalue : ∀ {room cs v left}, readValue fuel room cs = .ok (v, left) →
      Reads room cs (.value v) left)
    (hitems : ∀ {room cs items left}, readItems fuel room cs = .ok (items, left) →
      Reads room cs (.items items) left)
    {room : Nat} {cs left : List Char} {items : List Json}
    (h : readItems (fuel + 1) room cs = .ok (items, left)) : Reads room cs (.items items) left := by
  rw [readItems.eq_def] at h
  obtain ⟨⟨v, after⟩, hv, h⟩ := Except.bind_eq_ok_iff.mp h
  dsimp only at h
  split at h
  · next hend =>
    obtain ⟨rfl, rfl⟩ := Prod.mk.inj (Except.ok.inj h)
    exact .lastItem (hvalue hv) hend
  · next hcomma =>
    obtain ⟨⟨others, left⟩, hothers, h⟩ := Except.bind_eq_ok_iff.mp h
    obtain ⟨rfl, rfl⟩ := Prod.mk.inj (Except.ok.inj h)
    exact .item (hvalue hv) hcomma (hitems hothers)
  · cases h

private theorem reads_of_readFields_succ {fuel : Nat}
    (hvalue : ∀ {room cs v left}, readValue fuel room cs = .ok (v, left) →
      Reads room cs (.value v) left)
    (hfields : ∀ {room cs fields left}, readFields fuel room cs = .ok (fields, left) →
      Reads room cs (.fields fields) left)
    {room : Nat} {cs left : List Char} {fields : Fields}
    (h : readFields (fuel + 1) room cs = .ok (fields, left)) :
    Reads room cs (.fields fields) left := by
  rw [readFields.eq_def] at h
  dsimp only at h
  split at h
  · obtain ⟨⟨name, after⟩, hname, h⟩ := Except.bind_eq_ok_iff.mp h
    have hname := readString_eq_ok_iff.mp hname
    dsimp only at h
    split at h
    · next hcolon =>
      obtain ⟨⟨v, rest⟩, hv, h⟩ := Except.bind_eq_ok_iff.mp h
      dsimp only at h
      split at h
      · next hend =>
        obtain ⟨rfl, rfl⟩ := Prod.mk.inj (Except.ok.inj h)
        exact .lastField hname hcolon (hvalue hv) hend
      · next hcomma =>
        obtain ⟨⟨others, left⟩, hothers, h⟩ := Except.bind_eq_ok_iff.mp h
        obtain ⟨rfl, rfl⟩ := Prod.mk.inj (Except.ok.inj h)
        exact .field hname hcolon (hvalue hv) hcomma (hfields hothers)
      · cases h
    · cases h
  · cases h

/-- **Everything the readers read** follows the rules, under whatever bound. -/
theorem reads_of_readers (fuel : Nat) :
    (∀ {room cs v left}, readValue fuel room cs = .ok (v, left) → Reads room cs (.value v) left) ∧
      (∀ {room cs items left}, readItems fuel room cs = .ok (items, left) →
        Reads room cs (.items items) left) ∧
      ∀ {room cs fields left}, readFields fuel room cs = .ok (fields, left) →
        Reads room cs (.fields fields) left := by
  induction fuel with
  | zero => exact ⟨nofun, nofun, nofun⟩
  | succ fuel ih =>
    obtain ⟨hvalue, hitems, hfields⟩ := ih
    exact ⟨reads_of_readValue_succ hitems hfields, reads_of_readItems_succ hvalue hitems,
      reads_of_readFields_succ hvalue hfields⟩

/-! ### What there is to read is read -/

private theorem length_skipSpace_le (cs : List Char) : (skipSpace cs).length ≤ cs.length :=
  (List.dropWhile_suffix _).length_le

/-- What is left after blanks and a mark is less than there was. -/
private theorem length_lt_of_skipSpace {cs left : List Char} {c : Char}
    (h : skipSpace cs = c :: left) : left.length < cs.length := by
  have hle := length_skipSpace_le cs
  rw [h, List.length_cons] at hle
  exact hle

private theorem length_lt_of_readScalar {cs left : List Char} {v : Json}
    (h : readScalar cs = .ok (v, left)) : left.length < cs.length := by
  obtain ⟨c, rest, rfl, -, taken, rfl, -⟩ := passesTo_of_readScalar h
  rw [List.length_cons, List.length_append]
  omega

theorem Reads.length_lt {room : Nat} {cs left : List Char} {part : Part}
    (h : Reads room cs part left) : left.length < cs.length := by
  induction h with
  | string h => exact h.length_lt.trans (Nat.lt_succ_self _)
  | emptyArray h | emptyObject h => exact (length_lt_of_skipSpace h).trans (Nat.lt_succ_self _)
  | array _ ih | object _ ih =>
    exact (ih.trans_le (length_skipSpace_le _)).trans (Nat.lt_succ_self _)
  | scalar h => exact length_lt_of_readScalar h
  | lastItem _ hend ih => exact (length_lt_of_skipSpace hend).trans ih
  | @item _ _ _ next _ _ _ _ hcomma _ ih ih' =>
    have hnext := length_lt_of_skipSpace hcomma
    have hspace := length_skipSpace_le next
    omega
  | @lastField _ _ _ _ body _ _ _ hname hcolon _ hend ih =>
    have hname := hname.length_lt
    have hbody := length_lt_of_skipSpace hcolon
    have hspace := length_skipSpace_le body
    have hend := length_lt_of_skipSpace hend
    rw [List.length_cons]
    omega
  | @field _ _ _ _ body _ next _ _ _ hname hcolon _ hcomma _ ih ih' =>
    have hname := hname.length_lt
    have hbody := length_lt_of_skipSpace hcolon
    have hspace := length_skipSpace_le body
    have hnext := length_lt_of_skipSpace hcomma
    have hspace' := length_skipSpace_le next
    rw [List.length_cons]
    omega

/-- The reader for a part takes it from the head of `cs`. -/
def Part.ReadBy (fuel room : Nat) (cs : List Char) (part : Part) (left : List Char) : Prop :=
  match part with
  | .value v => readValue fuel room cs = .ok (v, left)
  | .items vs => readItems fuel room cs = .ok (vs, left)
  | .fields named => readFields fuel room cs = .ok (named, left)

/-- A part begins with a quote, an opening mark or a character of a word or a number. -/
theorem Reads.head {room : Nat} {cs left : List Char} {part : Part}
    (h : Reads room cs part left) :
    ∃ c rest, cs = c :: rest ∧ (c = '"' ∨ c = '[' ∨ c = '\x7b' ∨ isScalarChar c = true) := by
  induction h with
  | string _ | lastField _ _ _ _ | field _ _ _ _ _ => exact ⟨_, _, rfl, .inl rfl⟩
  | emptyArray _ | array _ => exact ⟨_, _, rfl, .inr (.inl rfl)⟩
  | emptyObject _ | object _ => exact ⟨_, _, rfl, .inr (.inr (.inl rfl))⟩
  | scalar h =>
    obtain ⟨c, rest, rfl, hc, -⟩ := passesTo_of_readScalar h
    exact ⟨c, rest, rfl, .inr (.inr (.inr hc))⟩
  | lastItem _ _ ih => exact ih
  | item _ _ _ ih _ => exact ih

theorem Reads.ne_closing {room : Nat} {cs left : List Char} {part : Part}
    (h : Reads room cs part left) (rest : List Char) :
    cs ≠ ']' :: rest ∧ cs ≠ '\x7d' :: rest := by
  obtain ⟨c, rest', rfl, hc⟩ := h.head
  constructor
  · rintro heq
    rw [(List.cons.inj heq).1] at hc
    exact absurd hc (by decide)
  · rintro heq
    rw [(List.cons.inj heq).1] at hc
    exact absurd hc (by decide)

section

variable {fuel room : Nat} {cs left : List Char}

private theorem readValue_of_readScalar {v : Json} (h : readScalar cs = .ok (v, left)) :
    readValue (fuel + 1) room cs = .ok (v, left) := by
  obtain ⟨c, rest, rfl, hc, -⟩ := passesTo_of_readScalar h
  have hne : ∀ d, isScalarChar d = false → c ≠ d := by
    rintro d hd rfl
    rw [hc] at hd
    cases hd
  rw [readValue.eq_def]
  dsimp only
  split
  · next heq => exact absurd (List.cons.inj heq).1 (hne _ (by decide))
  · next heq => exact absurd (List.cons.inj heq).1 (hne _ (by decide))
  · next heq => exact absurd (List.cons.inj heq).1 (hne _ (by decide))
  · exact h

private theorem readValue_array {items : List Json} (hopen : ∀ rest, skipSpace cs ≠ ']' :: rest)
    (h : readItems fuel room (skipSpace cs) = .ok (items, left)) :
    readValue (fuel + 1) (room + 1) ('[' :: cs) = .ok (.arr items, left) := by
  rw [readValue, if_neg (Nat.succ_ne_zero _)]
  split
  · next hclosed => exact absurd hclosed (hopen _)
  · rw [Nat.add_sub_cancel, h]
    rfl

private theorem readValue_object {fields : Fields}
    (hopen : ∀ rest, skipSpace cs ≠ '\x7d' :: rest)
    (h : readFields fuel room (skipSpace cs) = .ok (fields, left)) :
    readValue (fuel + 1) (room + 1) ('\x7b' :: cs) =
      .ok (.obj (Fields.putAll [] fields), left) := by
  rw [readValue, if_neg (Nat.succ_ne_zero _)]
  split
  · next hclosed => exact absurd hclosed (hopen _)
  · rw [Nat.add_sub_cancel, h]
    rfl

private theorem exists_fuel (hlt : left.length < cs.length)
    (hfuel : 2 * cs.length ≤ fuel + 2 * left.length) : ∃ n, fuel = n + 2 :=
  ⟨fuel - 2, by omega⟩

private theorem readItems_of_readValue {after : List Char} {v : Json}
    (hv : readValue fuel room cs = .ok (v, after)) : readItems (fuel + 1) room cs =
      match skipSpace after with
      | ']' :: left => .ok ([v], left)
      | ',' :: next => (readItems fuel room (skipSpace next)).map fun (items, left) =>
          (v :: items, left)
      | left => .error (.malformed .comma left) := by
  rw [readItems, hv]
  change (match skipSpace after with
    | ']' :: left => _
    | ',' :: next => _
    | left => _) = _
  split
  · rfl
  · next next _ => cases readItems fuel room (skipSpace next) <;> rfl
  · rfl

private theorem ok_bind {α β : Type} (a : α) (f : α → Except Stop β) :
    (Except.ok a >>= f) = f a :=
  rfl

private theorem readFields_of_readValue {name after body rest : List Char} {v : Json}
    (hname : ReadsString cs name after) (hcolon : skipSpace after = ':' :: body)
    (hv : readValue fuel room (skipSpace body) = .ok (v, rest)) :
    readFields (fuel + 1) room ('"' :: cs) =
      match skipSpace rest with
      | '\x7d' :: left => .ok ([(String.ofList name, v)], left)
      | ',' :: next => (readFields fuel room (skipSpace next)).map fun (fields, left) =>
          ((String.ofList name, v) :: fields, left)
      | left => .error (.malformed .comma left) := by
  rw [readFields, hname.readString, ok_bind]
  dsimp only
  rw [hcolon]
  change (readValue fuel room (skipSpace body) >>= _) = _
  rw [hv]
  change (match skipSpace rest with
    | '\x7d' :: left => _
    | ',' :: next => _
    | left => _) = _
  split
  · rfl
  · next next _ => cases readFields fuel room (skipSpace next) <;> rfl
  · rfl

end

/-- **Everything that follows the rules is read**, if the bound leaves two readers for each
character. -/
theorem Reads.readBy {room : Nat} {cs left : List Char} {part : Part}
    (h : Reads room cs part left) {fuel : Nat} (hfuel : 2 * cs.length ≤ fuel + 2 * left.length) :
    part.ReadBy fuel room cs left := by
  induction h generalizing fuel with
  | string h =>
    obtain ⟨fuel, rfl⟩ := exists_fuel (@Reads.string 0 _ _ _ h).length_lt hfuel
    rw [Part.ReadBy, readValue, h.readString]
    rfl
  | emptyArray h =>
    obtain ⟨fuel, rfl⟩ := exists_fuel (@Reads.emptyArray 0 _ _ h).length_lt hfuel
    rw [Part.ReadBy, readValue, if_neg (Nat.succ_ne_zero _), h]
    rfl
  | emptyObject h =>
    obtain ⟨fuel, rfl⟩ := exists_fuel (@Reads.emptyObject 0 _ _ h).length_lt hfuel
    rw [Part.ReadBy, readValue, if_neg (Nat.succ_ne_zero _), h]
    rfl
  | @array _ cs _ _ h ih =>
    obtain ⟨fuel, rfl⟩ := exists_fuel h.array.length_lt hfuel
    have hspace := length_skipSpace_le cs
    rw [List.length_cons] at hfuel
    exact readValue_array (fun rest => (h.ne_closing rest).1) (ih (by omega))
  | @object _ cs _ _ h ih =>
    obtain ⟨fuel, rfl⟩ := exists_fuel h.object.length_lt hfuel
    have hspace := length_skipSpace_le cs
    rw [List.length_cons] at hfuel
    exact readValue_object (fun rest => (h.ne_closing rest).2) (ih (by omega))
  | scalar h =>
    obtain ⟨fuel, rfl⟩ := exists_fuel (length_lt_of_readScalar h) hfuel
    exact readValue_of_readScalar h
  | lastItem hv hend ih =>
    obtain ⟨fuel, rfl⟩ := exists_fuel (hv.lastItem hend).length_lt hfuel
    have hleft := length_lt_of_skipSpace hend
    have hread := @ih (fuel + 1) (by omega)
    rw [Part.ReadBy, readItems_of_readValue hread, hend]
    rfl
  | @item _ _ _ next _ _ _ hv hcomma hitems ih ih' =>
    obtain ⟨fuel, rfl⟩ := exists_fuel (hv.item hcomma hitems).length_lt hfuel
    have hlt := hv.length_lt
    have hnext := length_lt_of_skipSpace hcomma
    have hspace := length_skipSpace_le next
    have hleft := hitems.length_lt
    have hread := @ih (fuel + 1) (by omega)
    have hrest := @ih' (fuel + 1) (by omega)
    rw [Part.ReadBy] at hrest
    rw [Part.ReadBy, readItems_of_readValue hread, hcomma]
    change (readItems (fuel + 1) _ (skipSpace next)).map _ = _
    rw [hrest]
    rfl
  | @lastField _ _ _ _ body _ _ _ hname hcolon hv hend ih =>
    obtain ⟨fuel, rfl⟩ := exists_fuel (Reads.lastField hname hcolon hv hend).length_lt hfuel
    have hlt := hname.length_lt
    have hbody := length_lt_of_skipSpace hcolon
    have hspace := length_skipSpace_le body
    have hleft := length_lt_of_skipSpace hend
    rw [List.length_cons] at hfuel
    have hread := @ih (fuel + 1) (by omega)
    rw [Part.ReadBy, readFields_of_readValue hname hcolon hread, hend]
    rfl
  | @field _ _ _ _ body _ next _ _ _ hname hcolon hv hcomma hfields ih ih' =>
    obtain ⟨fuel, rfl⟩ := exists_fuel (Reads.field hname hcolon hv hcomma hfields).length_lt hfuel
    have hlt := hname.length_lt
    have hbody := length_lt_of_skipSpace hcolon
    have hspace := length_skipSpace_le body
    have hlt' := hv.length_lt
    have hnext := length_lt_of_skipSpace hcomma
    have hspace' := length_skipSpace_le next
    have hleft := hfields.length_lt
    rw [List.length_cons] at hfuel
    have hread := @ih (fuel + 1) (by omega)
    have hrest := @ih' (fuel + 1) (by omega)
    rw [Part.ReadBy] at hrest
    rw [Part.ReadBy, readFields_of_readValue hname hcolon hread, hcomma]
    change (readFields (fuel + 1) _ (skipSpace next)).map _ = _
    rw [hrest]
    rfl

/-- **Texts are read** by the rules: no byte order mark, then a value between blanks. -/
theorem readWithin_eq_ok_iff {room : Nat} {text : String} {v : Json} :
    readWithin room text = .ok v ↔ text.toList.head? ≠ some (Char.ofNat 0xFEFF) ∧
      ∃ left, Reads room (skipSpace text.toList) (.value v) left ∧ skipSpace left = [] := by
  have hwithin : readWithin room text = .ok v ↔ readChars room text.toList = .ok v := by
    rw [readWithin]
    split <;> simp [*]
  rw [hwithin, readChars]
  by_cases hmark : text.toList.head? = some (Char.ofNat 0xFEFF)
  · rw [if_pos hmark]
    exact ⟨nofun, fun h => absurd hmark h.1⟩
  rw [if_neg hmark, Except.bind_eq_ok_iff]
  constructor
  · rintro ⟨⟨w, left⟩, hread, h⟩
    refine ⟨hmark, left, ?_⟩
    dsimp only at h
    split at h
    · next hspace =>
      obtain rfl := Except.ok.inj h
      exact ⟨(reads_of_readers _).1 hread, hspace⟩
    · cases h
  · rintro ⟨-, left, hread, hspace⟩
    have hfuel : 2 * (skipSpace text.toList).length ≤ readFuel text.toList + 2 * left.length := by
      have hle := length_skipSpace_le text.toList
      rw [readFuel]
      omega
    refine ⟨_, hread.readBy hfuel, ?_⟩
    dsimp only
    rw [hspace]
    rfl

end Json

end ApiOutline
