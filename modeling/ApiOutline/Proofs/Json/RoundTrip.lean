import ApiOutline.Proofs.Json.Fields
import ApiOutline.Proofs.Json.Strings
import Mathlib.Data.List.Sort

/-!
# Values that are written and read again

A value that can be stored is read again from its text, and `Json.readBack` is what is read
(`Storable.readWithin_write`). It is the value itself but for three things: fields that are written
in another order are read in that order, halves of a surrogate pair that are escaped side by side
are read as one character, and where this makes two names of an object one, the later field counts.
So a style that neither sorts nor escapes gives back the value itself (`Storable.readBack_eq`), and
for strings without such halves the order of fields is all that differs (`Storable.same_readBack`).

The statement about a text is an induction on how the value can be stored. The lines of an array and
those of an object are read alike, up to what makes one line, so they share one induction over the
lines of a block (`reads_lines`).
-/

namespace ApiOutline

namespace Json

/-! ### Values that can be stored -/

/-- A value without fractions whose strings and names are all such that `ok` holds: integers have no
more digits than can be read, and an object has each name once. -/
inductive Storable (ok : String → Prop) : Json → Prop
  | null : Storable ok .null
  | bool (b : Bool) : Storable ok (.bool b)
  | int {n : Int} (h : (Nat.toDigits 10 n.natAbs).length ≤ maxDigits) : Storable ok (.int n)
  | str {s : String} (h : ok s) : Storable ok (.str s)
  | arr {items : List Json} (h : ∀ item ∈ items, Storable ok item) : Storable ok (.arr items)
  | obj {fields : Fields} (hdistinct : fields.Distinct) (hnames : ∀ field ∈ fields, ok field.1)
      (h : ∀ field ∈ fields, Storable ok field.2) : Storable ok (.obj fields)

theorem Storable.mono {ok ok' : String → Prop} (hok : ∀ s, ok s → ok' s) {v : Json}
    (h : Storable ok v) : Storable ok' v := by
  induction h with
  | null => exact .null
  | bool b => exact .bool b
  | int h => exact .int h
  | str h => exact .str (hok _ h)
  | arr _ ih => exact .arr ih
  | obj hdistinct hnames _ ih => exact .obj hdistinct (fun f hf => hok _ (hnames f hf)) ih

/-- Two values are the same but for the order of fields. -/
inductive Same : Json → Json → Prop
  | refl (v : Json) : Same v v
  | arr {items items' : List Json} (hlength : items.length = items'.length)
      (h : ∀ pair ∈ items.zip items', Same pair.1 pair.2) : Same (.arr items) (.arr items')
  | obj {fields fields' : Fields}
      (hnames : (fields.map Prod.fst).Perm (fields'.map Prod.fst))
      (h : ∀ {name v w}, fields.get? name = some v → fields'.get? name = some w → Same v w) :
      Same (.obj fields) (.obj fields')

/-! ### How deep containers are nested -/

theorem nestingOfItems_le_iff {items : List Json} {n : Nat} :
    nestingOfItems items ≤ n ↔ ∀ item ∈ items, item.nesting ≤ n := by
  induction items with
  | nil => simp [nestingOfItems]
  | cons item items ih => rw [nestingOfItems, Nat.max_le, ih, List.forall_mem_cons]

theorem nestingOfFields_le_iff {fields : Fields} {n : Nat} :
    nestingOfFields fields ≤ n ↔ ∀ field ∈ fields, field.2.nesting ≤ n := by
  induction fields with
  | nil => simp [nestingOfFields]
  | cons field fields ih =>
    obtain ⟨name, value⟩ := field
    rw [nestingOfFields, Nat.max_le, ih, List.forall_mem_cons]

theorem nesting_texts_le (texts : List String) : (arr (texts.map .str)).nesting ≤ 1 := by
  refine Nat.succ_le_succ (nestingOfItems_le_iff.mpr fun item hitem => ?_)
  obtain ⟨s, -, rfl⟩ := List.mem_map.mp hitem
  exact Nat.zero_le 0

/-! ### Fields in the order in which they are written -/

/-- Named things in the order in which the style writes them. -/
def Style.order {α : Type} (style : Style) (named : List (String × α)) : List (String × α) :=
  if style.sorted then named.mergeSort fun a b => Text.precedes a.1 b.1 else named

theorem Style.perm_order {α : Type} (style : Style) (named : List (String × α)) :
    (style.order named).Perm named := by
  rw [Style.order]
  split_ifs
  · exact List.mergeSort_perm ..
  · exact .refl _

/-- The order goes by names alone. -/
private theorem Style.order_map {α β : Type} (style : Style) (f : α → β)
    (named : List (String × α)) :
    style.order (named.map fun x => (x.1, f x.2)) =
      (style.order named).map fun x => (x.1, f x.2) := by
  rw [Style.order, Style.order]
  split_ifs
  · rw [List.map_mergeSort]
    exact fun _ _ _ _ => rfl
  · rfl

private theorem writeItems_eq_map (style : Style) (depth : Nat) (items : List Json) :
    writeItems style depth items = items.map (writeAt style depth) := by
  induction items with
  | nil => rfl
  | cons item items ih => rw [writeItems, ih, List.map_cons]

private theorem writeFields_eq_map (style : Style) (depth : Nat) (fields : Fields) :
    writeFields style depth fields =
      fields.map fun field => (field.1, writeAt style depth field.2) := by
  induction fields with
  | nil => rfl
  | cons field fields ih =>
    obtain ⟨name, value⟩ := field
    rw [writeFields, ih, List.map_cons]

/-- The line of one field. -/
def writeField (style : Style) (depth : Nat) (field : String × Json) : String :=
  writeString style field.1 ++ ": " ++ writeAt style depth field.2

theorem writeAt_arr (style : Style) (depth : Nat) (items : List Json) :
    writeAt style depth (.arr items) =
      writeBlock depth "[" "]" (items.map (writeAt style (depth + 1))) := by
  rw [writeAt, writeItems_eq_map]

theorem writeAt_obj (style : Style) (depth : Nat) (fields : Fields) :
    writeAt style depth (.obj fields) = writeBlock depth "\x7b" "\x7d"
      ((style.order fields).map (writeField style (depth + 1))) := by
  have horder := style.order_map (writeAt style (depth + 1)) fields
  rw [← writeFields_eq_map] at horder
  rw [writeAt]
  change writeBlock depth _ _ ((style.order (writeFields style (depth + 1) fields)).map _) = _
  rw [horder, List.map_map]
  rfl

/-! ### What is read of a written value -/

mutual

/-- What is read where the style has written a value. -/
def readBack (style : Style) : Json → Json
  | .null => .null
  | .bool b => .bool b
  | .int n => .int n
  | .float x => .float x
  | .str s => .str (style.reread s)
  | .arr items => .arr (readBackItems style items)
  | .obj fields =>
    .obj (Fields.putAll [] ((style.order (readBackFields style fields)).map fun (name, value) =>
      (style.reread name, value)))

/-- What is read where the style has written items. -/
def readBackItems (style : Style) : List Json → List Json
  | [] => []
  | item :: items => readBack style item :: readBackItems style items

/-- The names of fields with what is read of their values. -/
def readBackFields (style : Style) : List (String × Json) → List (String × Json)
  | [] => []
  | (name, value) :: fields => (name, readBack style value) :: readBackFields style fields

end

private theorem readBack_arr (style : Style) (items : List Json) :
    readBack style (.arr items) = .arr (items.map (readBack style)) := by
  have hitems : readBackItems style items = items.map (readBack style) := by
    induction items with
    | nil => rfl
    | cons item items ih => rw [readBackItems, ih, List.map_cons]
  rw [readBack, hitems]

/-- What is read of the line of one field. -/
def readBackField (style : Style) (field : String × Json) : String × Json :=
  (style.reread field.1, readBack style field.2)

theorem readBack_obj (style : Style) (fields : Fields) : readBack style (.obj fields) =
    .obj (Fields.putAll [] ((style.order fields).map (readBackField style))) := by
  have hfields : readBackFields style fields =
      fields.map fun field => (field.1, readBack style field.2) := by
    induction fields with
    | nil => rfl
    | cons field fields ih =>
      obtain ⟨name, value⟩ := field
      rw [readBackFields, ih, List.map_cons]
  rw [readBack, hfields, style.order_map, List.map_map]
  rfl

/-! ### Integers -/

private theorem toList_decimal (n : Nat) : (Text.decimal n).toList = Nat.toDigits 10 n :=
  String.toList_ofList

private theorem digitsValue_toDigits (n : Nat) : digitsValue (Nat.toDigits 10 n) = n := by
  have hvalue : digitsValue (Nat.toDigits 10 n) = Nat.ofDigitChars 10 (Nat.toDigits 10 n) 0 := by
    rw [digitsValue, Nat.ofDigitChars_eq_foldl]
    exact congrArg (fun f => List.foldl f 0 _) (funext₂ fun m c => by rw [Nat.mul_comm])
  rw [hvalue, Nat.ofDigitChars_ten_toDigits]

/-- The digits of a number begin with zero only where it is zero. -/
private theorem toDigits_ne_zero_cons {n : Nat} (h : n ≠ 0) (cs : List Char) :
    Nat.toDigits 10 n ≠ '0' :: cs := by
  induction n using Nat.strong_induction_on generalizing cs with
  | h n ih =>
    rw [Nat.toDigits_eq_if (by decide)]
    split_ifs with hn
    · have hdigits : ∀ k < 10, k ≠ 0 → Nat.digitChar k ≠ '0' := by decide
      exact fun heq => hdigits n hn h (List.cons.inj heq).1
    · intro heq
      obtain ⟨c, rest, hrest⟩ :=
        List.exists_cons_of_ne_nil (Nat.toDigits_ne_nil (n := n / 10) (b := 10))
      rw [hrest, List.cons_append] at heq
      rw [(List.cons.inj heq).1] at hrest
      exact ih (n / 10) (by omega) (by omega) rest hrest

private theorem wholeDigits_toDigits (n : Nat) :
    wholeDigits (Nat.toDigits 10 n) = (Nat.toDigits 10 n, []) := by
  by_cases h : n = 0
  · rw [h, Nat.toDigits_zero]
    rfl
  · have hdigits : ∀ c ∈ Nat.toDigits 10 n, c.isDigit = true := fun c hc =>
      Nat.isDigit_of_mem_toDigits (by decide) (by decide) hc
    rw [wholeDigits.eq_2 _ (toDigits_ne_zero_cons h), List.takeWhile_eq_self_iff.mpr hdigits,
      List.dropWhile_eq_nil_iff.mpr hdigits]

private theorem unsigned?_toDigits {n : Nat} (h : (Nat.toDigits 10 n).length ≤ maxDigits)
    (negative : Bool) :
    unsigned? negative (Nat.toDigits 10 n) = some (.int (if negative then -n else n), []) := by
  have hlength : ¬maxDigits < (Nat.toDigits 10 n).length := Nat.not_lt.mpr h
  have hempty : (Nat.toDigits 10 n).isEmpty = false := by
    rw [List.isEmpty_eq_false_iff]
    exact Nat.toDigits_ne_nil
  simp only [unsigned?, numberParts, wholeDigits_toDigits, numberOf?, hempty, digitsValue_toDigits,
    fractionDigits, exponentPart]
  simp [hlength]

/-- No word begins with a digit, or with one after a sign. -/
private theorem word?_eq_none {c : Char} (h : c.isDigit = true) (cs : List Char) :
    word? (c :: cs) = none ∧ word? ('-' :: c :: cs) = none := by
  have hwords : ∀ text ∈ words.map Prod.fst,
      text.toList.head?.all (!·.isDigit) = true ∧
        text.toList.tail.head?.any (!·.isDigit) = true := by
    decide
  have hne : ∀ d : Char, (!d.isDigit) = true → d ≠ c := by
    rintro d hd rfl
    rw [h] at hd
    cases hd
  constructor
  · rw [word?, Option.map_eq_none_iff, List.find?_eq_none]
    intro word hword hhead
    obtain ⟨left, hleft⟩ := List.isPrefixOf_iff_prefix.mp hhead
    obtain ⟨hfirst, hsecond⟩ := hwords _ (List.mem_map_of_mem hword)
    cases htext : word.1.toList with
    | nil => simp [htext] at hsecond
    | cons d rest =>
      rw [htext, List.cons_append] at hleft
      rw [htext] at hfirst
      exact hne d (by simpa using hfirst) (List.cons.inj hleft).1
  · rw [word?, Option.map_eq_none_iff, List.find?_eq_none]
    intro word hword hhead
    obtain ⟨left, hleft⟩ := List.isPrefixOf_iff_prefix.mp hhead
    obtain ⟨-, hsecond⟩ := hwords _ (List.mem_map_of_mem hword)
    cases htext : word.1.toList with
    | nil => simp [htext] at hsecond
    | cons first rest =>
      rw [htext, List.cons_append] at hleft
      rw [htext, List.tail_cons] at hsecond
      cases rest with
      | nil => cases hsecond
      | cons d rest =>
        exact hne d (by simpa using hsecond) (List.cons.inj (List.cons.inj hleft).2).1

/-- **An integer reads as it was**, if it has no more digits than can be read. -/
theorem readScalar_decimalInt {n : Int} (h : (Nat.toDigits 10 n.natAbs).length ≤ maxDigits) :
    readScalar (Text.decimalInt n).toList = .ok (.int n, []) := by
  obtain ⟨c, cs, hdigits⟩ :=
    List.exists_cons_of_ne_nil (Nat.toDigits_ne_nil (n := n.natAbs) (b := 10))
  have hc : c.isDigit = true := Nat.isDigit_of_mem_toDigits (b := 10) (n := n.natAbs) (by decide)
    (by decide) (hdigits ▸ List.mem_cons_self)
  obtain ⟨hword, hword'⟩ := word?_eq_none hc cs
  have hread : (readScalar (Text.decimalInt n).toList).toOption = some (.int n, []) := by
    rw [toOption_readScalar, Text.decimalInt]
    split_ifs with hn
    · have htext : ("-" ++ Text.decimal n.natAbs).toList = '-' :: Nat.toDigits 10 n.natAbs := by
        rw [String.toList_append, toList_decimal]
        rfl
      rw [htext, hdigits, hword', ← hdigits, toOption_readNumber_neg, unsigned?_toDigits h]
      simp only [Option.none_or, if_true, Option.some.injEq, Prod.mk.injEq, Json.int.injEq,
        and_true]
      omega
    · have hsign : ∀ body, Nat.toDigits 10 n.natAbs ≠ '-' :: body := by
        rintro body heq
        rw [hdigits] at heq
        rw [(List.cons.inj heq).1] at hc
        exact absurd hc (by decide)
      rw [toList_decimal, hdigits, hword, ← hdigits, toOption_readNumber_of_ne hsign,
        unsigned?_toDigits h]
      simp only [Option.none_or, Bool.false_eq_true, if_false, Option.some.injEq, Prod.mk.injEq,
        Json.int.injEq, and_true]
      omega
  cases hresult : readScalar (Text.decimalInt n).toList with
  | error stop =>
    rw [hresult] at hread
    cases hread
  | ok step =>
    rw [hresult] at hread
    rw [Option.some.inj hread]

/-! ### Blanks between the parts -/

private theorem skipSpace_cons {c : Char} (h : isSpace c = false) (cs : List Char) :
    skipSpace (c :: cs) = c :: cs :=
  List.dropWhile_cons_of_neg (by simp [h])

private theorem skipSpace_append {spaces : List Char} (h : ∀ c ∈ spaces, isSpace c = true)
    (cs : List Char) : skipSpace (spaces ++ cs) = skipSpace cs := by
  rw [skipSpace, skipSpace, List.dropWhile_append_of_pos h]

/-- A new line is a line break and blanks. -/
theorem toList_newLine (depth : Nat) :
    (newLine depth).toList = '\n' :: List.replicate (2 * depth) ' ' := by
  have hindent : (String.join (List.replicate depth "  ")).toList =
      List.replicate (2 * depth) ' ' := by
    induction depth with
    | zero => rfl
    | succ depth ih =>
      rw [List.replicate_succ, String.join_cons, String.toList_append, ih]
      rfl
  rw [newLine, String.toList_append, hindent]
  rfl

private theorem isSpace_of_mem_newLine {depth : Nat} {c : Char} (h : c ∈ (newLine depth).toList) :
    isSpace c = true := by
  rw [toList_newLine] at h
  rcases List.mem_cons.mp h with rfl | h
  · decide
  · rw [List.eq_of_mem_replicate h]
    decide

private theorem skipSpace_newLine (depth : Nat) (cs : List Char) :
    skipSpace ((newLine depth).toList ++ cs) = skipSpace cs :=
  skipSpace_append (fun _ => isSpace_of_mem_newLine) cs

private theorem endsScalar_newLine (depth : Nat) (cs : List Char) :
    EndsScalar ((newLine depth).toList ++ cs) := by
  rw [toList_newLine, List.cons_append]
  exact .cons (by decide) _

/-- A part begins with no blank. -/
private theorem Reads.skipSpace_eq {room : Nat} {cs left : List Char} {part : Part}
    (h : Reads room cs part left) : skipSpace cs = cs := by
  obtain ⟨c, rest, rfl, hc⟩ := h.head
  refine skipSpace_cons ?_ rest
  have hspaces : ∀ d, isSpace d = true →
      d ≠ '"' ∧ d ≠ '[' ∧ d ≠ '\x7b' ∧ isScalarChar d = false := by
    intro d hd
    simp only [isSpace, Bool.or_eq_true, beq_iff_eq] at hd
    rcases hd with ((rfl | rfl) | rfl) | rfl
    all_goals decide
  by_contra hspace
  obtain ⟨hquote, hbracket, hbrace, hscalar⟩ := hspaces c (eq_true_of_ne_false hspace)
  rcases hc with rfl | rfl | rfl | hc
  · exact hquote rfl
  · exact hbracket rfl
  · exact hbrace rfl
  · rw [hscalar] at hc
    cases hc

/-! ### Blocks of lines -/

/-- The lines of a block, up to and with its closing mark. -/
def blockLines (depth : Nat) (closing : Char) : List String → List Char
  | [] => []
  | [line] => line.toList ++ ((newLine depth).toList ++ [closing])
  | line :: next :: lines =>
    line.toList ++
      (',' :: ((newLine (depth + 1)).toList ++ blockLines depth closing (next :: lines)))

private theorem toList_writeBlock_nil (depth : Nat) (opening closing : String) :
    (writeBlock depth opening closing []).toList = opening.toList ++ closing.toList := by
  rw [writeBlock, List.isEmpty_nil, if_pos rfl, String.toList_append]

private theorem toList_writeBlock {depth : Nat} {opening closing : String} {o c : Char}
    (hopening : opening.toList = [o]) (hclosing : closing.toList = [c]) {lines : List String}
    (h : lines ≠ []) : (writeBlock depth opening closing lines).toList =
      o :: ((newLine (depth + 1)).toList ++ blockLines depth c lines) := by
  have hlines : ∀ lines : List String, lines ≠ [] →
      (("," ++ newLine (depth + 1)).intercalate lines).toList ++
        ((newLine depth).toList ++ [c]) = blockLines depth c lines := by
    intro lines hne
    rw [String.toList_intercalate]
    induction lines with
    | nil => exact absurd rfl hne
    | cons line lines ih =>
      cases lines with
      | nil => rw [List.map_cons, List.map_nil, List.intercalate_singleton, blockLines]
      | cons next lines =>
        have ih := ih (List.cons_ne_nil _ _)
        rw [List.map_cons] at ih
        rw [List.map_cons, List.map_cons, List.intercalate_cons_cons, blockLines, ← ih,
          String.toList_append]
        simp only [List.append_assoc]
        rfl
  rw [writeBlock, if_neg (by simpa using h), ← hlines lines h]
  simp only [String.toList_append, hopening, hclosing, List.append_assoc, List.cons_append,
    List.nil_append]

/-- **The lines of a block are read**, if each line is, and what is read of a line and of the lines
after it is what is read of them together. -/
theorem reads_lines {α β : Type} {line : α → String} {value : α → β} (closing : Char) (depth : Nat)
    (One : List Char → β → List Char → Prop) (Many : List Char → List β → List Char → Prop)
    (hlast : ∀ {cs after left b}, One cs b after → skipSpace after = closing :: left →
      Many cs [b] left)
    (hmore : ∀ {cs after next left b bs}, One cs b after → skipSpace after = ',' :: next →
      Many (skipSpace next) bs left → Many cs (b :: bs) left)
    (hstart : ∀ {cs bs left}, Many cs bs left → skipSpace cs = cs)
    (hclosing : isSpace closing = false) {lines : List α} (hne : lines ≠ [])
    (hlines : ∀ a ∈ lines, ∀ rest, EndsScalar rest → One ((line a).toList ++ rest) (value a) rest)
    (left : List Char) :
    Many (blockLines depth closing (lines.map line) ++ left) (lines.map value) left := by
  induction lines with
  | nil => exact absurd rfl hne
  | cons a lines ih =>
    obtain ⟨ha, hlines⟩ := List.forall_mem_cons.mp hlines
    cases lines with
    | nil =>
      rw [List.map_cons, List.map_nil, blockLines, List.append_assoc, List.append_assoc]
      refine hlast (ha _ (endsScalar_newLine _ _)) ?_
      rw [skipSpace_newLine]
      exact skipSpace_cons hclosing left
    | cons b lines =>
      have hrest := ih (List.cons_ne_nil _ _) hlines
      rw [List.map_cons] at hrest
      rw [List.map_cons, List.map_cons, blockLines, List.append_assoc, List.cons_append,
        List.append_assoc]
      refine hmore (ha _ (.cons (by decide) _)) (skipSpace_cons (by decide) _) ?_
      rwa [skipSpace_newLine, hstart hrest]

/-! ### Whole values -/

section

variable {style : Style} {room depth : Nat} {rest : List Char}

private theorem reads_scalar {text : String} {v : Json}
    (h : readScalar text.toList = .ok (v, [])) (hrest : EndsScalar rest) :
    Reads room (text.toList ++ rest) (.value v) rest :=
  .scalar ((@readScalar_append _ hrest _ [] _).mpr h)

private theorem reads_array {items : List Json}
    (h : ∀ item ∈ items, ∀ rest, EndsScalar rest →
      Reads room ((writeAt style (depth + 1) item).toList ++ rest) (.value (readBack style item))
        rest) :
    Reads (room + 1) ((writeAt style depth (.arr items)).toList ++ rest)
      (.value (readBack style (.arr items))) rest := by
  rw [writeAt_arr, readBack_arr]
  by_cases hne : items = []
  · rw [hne, List.map_nil, List.map_nil, toList_writeBlock_nil]
    exact .emptyArray (skipSpace_cons (by decide) rest)
  · rw [toList_writeBlock (o := '[') (c := ']') rfl rfl (by simpa using hne), List.cons_append,
      List.append_assoc]
    refine .array ?_
    have hread := reads_lines ']' depth (fun cs v left => Reads room cs (.value v) left)
      (fun cs vs left => Reads room cs (.items vs) left) .lastItem .item Reads.skipSpace_eq
      (by decide) hne h rest
    rwa [skipSpace_newLine, hread.skipSpace_eq]

/-- A field at the head of some characters. -/
private def ReadsField (room : Nat) (cs : List Char) (field : String × Json)
    (left : List Char) : Prop :=
  ∃ inside name after body, cs = '"' :: inside ∧ ReadsString inside name after ∧
    String.ofList name = field.1 ∧ skipSpace after = ':' :: body ∧
    Reads room (skipSpace body) (.value field.2) left

private theorem reads_object {fields : Fields} (hnames : ∀ field ∈ fields, style.Writes field.1)
    (h : ∀ field ∈ fields, ∀ rest, EndsScalar rest →
      Reads room ((writeAt style (depth + 1) field.2).toList ++ rest)
        (.value (readBack style field.2)) rest) :
    Reads (room + 1) ((writeAt style depth (.obj fields)).toList ++ rest)
      (.value (readBack style (.obj fields))) rest := by
  have hmem : ∀ field ∈ style.order fields, field ∈ fields := fun field hfield =>
    (style.perm_order fields).mem_iff.mp hfield
  have hfields : ∀ field ∈ style.order fields, ∀ rest, EndsScalar rest →
      ReadsField room ((writeField style (depth + 1) field).toList ++ rest)
        (readBackField style field) rest := by
    intro field hfield rest hrest
    have hvalue := h field (hmem field hfield) rest hrest
    have htext : (writeField style (depth + 1) field).toList ++ rest =
        (writeString style field.1).toList ++
          (':' :: ' ' :: ((writeAt style (depth + 1) field.2).toList ++ rest)) := by
      rw [writeField, String.toList_append, String.toList_append]
      simp only [List.append_assoc]
      rfl
    obtain ⟨inside, name, hinside, hname, hreread⟩ :=
      readsString_writeString (hnames field (hmem field hfield))
        (':' :: ' ' :: ((writeAt style (depth + 1) field.2).toList ++ rest))
    refine ⟨inside, name, _, _, htext.trans hinside, hname, hreread, skipSpace_cons (by decide) _,
      ?_⟩
    have hblank : skipSpace (' ' :: ((writeAt style (depth + 1) field.2).toList ++ rest)) =
        skipSpace ((writeAt style (depth + 1) field.2).toList ++ rest) := rfl
    rwa [hblank, hvalue.skipSpace_eq]
  rw [writeAt_obj, readBack_obj]
  by_cases hne : style.order fields = []
  · rw [hne, List.map_nil, List.map_nil, toList_writeBlock_nil]
    exact .emptyObject (skipSpace_cons (by decide) rest)
  · rw [toList_writeBlock (o := '\x7b') (c := '\x7d') rfl rfl (by simpa using hne),
      List.cons_append, List.append_assoc]
    refine .object ?_
    have hread := reads_lines '\x7d' depth (ReadsField room)
      (fun cs fields left => Reads room cs (.fields fields) left) ?_ ?_ Reads.skipSpace_eq
      (by decide) hne hfields rest
    · rwa [skipSpace_newLine, hread.skipSpace_eq]
    · rintro cs after left ⟨name, value⟩ ⟨inside, chars, after', body, rfl, hname, rfl, hcolon, hv⟩
        hend
      exact .lastField hname hcolon hv hend
    · rintro cs after next left ⟨name, value⟩ others
        ⟨inside, chars, after', body, rfl, hname, rfl, hcolon, hv⟩ hcomma hothers
      exact .field hname hcolon hv hcomma hothers

end

/-- **A written value is read** before anything that no word or number goes on with. -/
theorem Storable.reads {style : Style} {v : Json} (h : Storable style.Writes v) {room : Nat}
    (hroom : v.nesting ≤ room) (depth : Nat) {rest : List Char} (hrest : EndsScalar rest) :
    Reads room ((writeAt style depth v).toList ++ rest) (.value (readBack style v)) rest := by
  induction h generalizing room depth rest with
  | null =>
    rw [writeAt]
    exact reads_scalar rfl hrest
  | bool b =>
    rw [writeAt]
    cases b
    · exact reads_scalar rfl hrest
    · exact reads_scalar rfl hrest
  | int h =>
    rw [writeAt]
    exact reads_scalar (readScalar_decimalInt h) hrest
  | str h =>
    obtain ⟨inside, chars, htext, hread, hreread⟩ := readsString_writeString h rest
    rw [writeAt, readBack, htext, ← hreread]
    exact .string hread
  | arr _ ih =>
    obtain ⟨room, rfl⟩ : ∃ n, room = n + 1 := ⟨room - 1, by rw [nesting] at hroom; omega⟩
    have hitems := nestingOfItems_le_iff.mp (Nat.le_of_succ_le_succ hroom)
    exact reads_array fun item hitem rest hrest => ih item hitem (hitems item hitem) _ hrest
  | obj _ hnames _ ih =>
    obtain ⟨room, rfl⟩ : ∃ n, room = n + 1 := ⟨room - 1, by rw [nesting] at hroom; omega⟩
    have hfields := nestingOfFields_le_iff.mp (Nat.le_of_succ_le_succ hroom)
    exact reads_object hnames fun field hfield rest hrest =>
      ih field hfield (hfields field hfield) _ hrest

/-- **What was written is read back**, also with blanks after it. -/
theorem Storable.readWithin_write {style : Style} {v : Json} (h : Storable style.Writes v)
    {room : Nat} (hroom : v.nesting ≤ room) (blanks : String)
    (hblanks : ∀ c ∈ blanks.toList, isSpace c = true) :
    readWithin room (v.write style ++ blanks) = .ok (v.readBack style) := by
  have hends : EndsScalar blanks.toList := by
    intro c hc
    have hspace := hblanks c (List.mem_of_mem_head? hc)
    simp only [isSpace, Bool.or_eq_true, beq_iff_eq] at hspace
    rcases hspace with ((rfl | rfl) | rfl) | rfl
    all_goals decide
  have hread := h.reads hroom 0 hends
  have hleft : skipSpace blanks.toList = [] := List.dropWhile_eq_nil_iff.mpr hblanks
  rw [readWithin_eq_ok_iff, String.toList_append, write, hread.skipSpace_eq]
  refine ⟨?_, _, hread, hleft⟩
  obtain ⟨c, cs, hcs, hc⟩ := hread.head
  rw [hcs]
  rintro hmark
  rw [Option.some.inj hmark] at hc
  exact absurd hc (by decide)

/-! ### What is read back is the value -/

/-- A style that neither sorts nor escapes gives back the value itself. -/
theorem Storable.readBack_eq {style : Style} (hsorted : style.sorted = false) {v : Json}
    (h : Storable (fun s => style.reread s = s) v) : v.readBack style = v := by
  induction h with
  | null => rfl
  | bool b => rfl
  | int h => rfl
  | str h => rw [readBack, h]
  | @arr items _ ih => rw [readBack_arr, List.map_congr_left ih, List.map_id']
  | @obj fields hdistinct hnames _ ih =>
    have hfields : ∀ field ∈ fields, readBackField style field = field := fun field hfield => by
      rw [readBackField, hnames field hfield, ih field hfield]
    rw [readBack_obj, Style.order, if_neg (by simp [hsorted]), List.map_congr_left hfields,
      List.map_id', hdistinct.putAll_nil]

/-- **A value is the same as what is read back**, where no halves of surrogate pairs are joined. -/
theorem Storable.same_readBack {style : Style} {v : Json}
    (h : Storable (fun s => style.reread s = s) v) : v.Same (v.readBack style) := by
  induction h with
  | null => exact .refl _
  | bool b => exact .refl _
  | int h => exact .refl _
  | str h =>
    rw [readBack, h]
    exact .refl _
  | @arr items _ ih =>
    rw [readBack_arr]
    refine .arr (List.length_map _).symm fun pair hpair => ?_
    rw [← List.map_id items, List.map_map, List.zip_map', List.mem_map] at hpair
    obtain ⟨item, hitem, rfl⟩ := hpair
    exact ih item hitem
  | @obj fields hdistinct hnames _ ih =>
    have hmem : ∀ field ∈ style.order fields, field ∈ fields := fun field hfield =>
      (style.perm_order fields).mem_iff.mp hfield
    have hfields : (style.order fields).map (readBackField style) =
        (style.order fields).map fun field => (field.1, readBack style field.2) :=
      List.map_congr_left fun field hfield => by
        rw [readBackField, hnames field (hmem field hfield)]
    have hperm : (fields.map Prod.fst).Perm
        (((style.order fields).map fun field => (field.1, readBack style field.2)).map
          Prod.fst) := by
      rw [List.map_map]
      exact ((style.perm_order fields).map Prod.fst).symm
    have hdistinct' : Fields.Distinct
        ((style.order fields).map fun field => (field.1, readBack style field.2)) :=
      hperm.nodup_iff.mp hdistinct
    rw [readBack_obj, hfields, hdistinct'.putAll_nil]
    refine .obj hperm fun {name v w} hv hw => ?_
    obtain ⟨⟨name', v'⟩, hfield, heq⟩ := List.mem_map.mp (hdistinct'.get?_eq_some_iff.mp hw)
    obtain ⟨rfl, rfl⟩ := Prod.mk.inj heq
    have hv' := hdistinct.get?_eq_some_iff.mpr (hmem _ hfield)
    obtain rfl := Option.some.inj (hv.symm.trans hv')
    exact ih _ (hmem _ hfield)

end Json

end ApiOutline
