import ApiOutline.Proofs.Module.Entries

/-!
# What the title of an owned entry tells

The title of an owned entry shows the name of its owner, whether it belongs to the owner itself,
how it is used, its own name, and the parameters of a method. These are its `Parts`, and the title
is their text (`Shows.title_eq`).

The parts can be found back in the text as long as no name holds a mark that ends it
(`Parts.IsPlain`): the owner goes up to the first joiner, the variant is told by the last character,
the name of a method goes up to the first parenthesis, and its parameters are divided by commas. So
the titles of two entries are the same only if all their parts are (`title_eq_title_iff`), wherever
the entries come from. Nothing is asked of a joiner in the name of the entry itself, which may be a
private one.
-/

namespace ApiOutline

/-! ### Finding marks -/

namespace Text

/-- What comes before the first mark is the same on both sides, if neither side holds the mark of
the other there. -/
private theorem append_cons_inj {before before' after after' : List Char} {mark mark' : Char}
    (hmark : mark ∉ before') (hmark' : mark' ∉ before)
    (h : before ++ mark :: after = before' ++ mark' :: after') :
    before = before' ∧ mark = mark' ∧ after = after' := by
  induction before generalizing before' with
  | nil =>
    cases before' with
    | nil => exact ⟨rfl, List.cons.inj h⟩
    | cons c rest => exact absurd ((List.cons.inj h).1 ▸ List.mem_cons_self) hmark
  | cons c rest ih =>
    cases before' with
    | nil => exact absurd ((List.cons.inj h).1 ▸ List.mem_cons_self) hmark'
    | cons c' rest' =>
      obtain ⟨hc, hrest⟩ := List.cons.inj h
      obtain ⟨hbefore, hafter⟩ := ih (List.not_mem_of_not_mem_cons hmark)
        (List.not_mem_of_not_mem_cons hmark') hrest
      exact ⟨by rw [hc, hbefore], hafter⟩

/-- With a comma and a space at the end as well, every token has its own. -/
private theorem toList_intercalate_append {tokens : List String} (h : tokens ≠ []) :
    (", ".intercalate tokens ++ ", ").toList =
      tokens.flatMap fun token => token.toList ++ [',', ' '] := by
  induction tokens with
  | nil => exact absurd rfl h
  | cons token rest ih =>
    rw [List.flatMap_cons]
    by_cases hrest : rest = []
    · simp [hrest]
    · rw [String.intercalate_cons_of_ne_nil hrest, String.append_assoc, String.toList_append,
        ih hrest, String.toList_append]
      rfl

/-- Tokens that hold no comma go up to their own one. -/
private theorem eq_of_flatMap_eq {tokens tokens' : List String}
    (h : ∀ token ∈ tokens, ',' ∉ token.toList)
    (h' : ∀ token ∈ tokens', ',' ∉ token.toList)
    (heq : (tokens.flatMap fun token => token.toList ++ [',', ' ']) =
      tokens'.flatMap fun token => token.toList ++ [',', ' ']) : tokens = tokens' := by
  induction tokens generalizing tokens' with
  | nil =>
    cases tokens' with
    | nil => rfl
    | cons token rest => simp at heq
  | cons token rest ih =>
    cases tokens' with
    | nil => simp at heq
    | cons token' rest' =>
      obtain ⟨htoken, hrest⟩ := List.forall_mem_cons.mp h
      obtain ⟨htoken', hrest'⟩ := List.forall_mem_cons.mp h'
      simp only [List.flatMap_cons, List.append_assoc, List.cons_append, List.nil_append] at heq
      obtain ⟨hfirst, -, hafter⟩ := append_cons_inj htoken' htoken heq
      rw [String.toList_inj.mp hfirst, ih hrest hrest' (List.cons.inj hafter).2]

/-- A row of tokens, none of them empty, is empty only if there is none. -/
private theorem intercalate_eq_empty_iff {tokens : List String} (h : ∀ token ∈ tokens, token ≠ "") :
    ", ".intercalate tokens = "" ↔ tokens = [] := by
  refine ⟨fun hempty => ?_, fun hnil => by rw [hnil]; rfl⟩
  cases tokens with
  | nil => rfl
  | cons token rest =>
    by_cases hrest : rest = []
    · rw [hrest, String.intercalate_singleton] at hempty
      exact absurd hempty (h token List.mem_cons_self)
    · rw [String.intercalate_cons_of_ne_nil hrest] at hempty
      simp at hempty

/-- **Tokens without commas** can be found back in the text that they are divided in, if none of
them is empty. -/
theorem intercalate_comma_inj {tokens tokens' : List String}
    (h : ∀ token ∈ tokens, token ≠ "" ∧ ',' ∉ token.toList)
    (h' : ∀ token ∈ tokens', token ≠ "" ∧ ',' ∉ token.toList)
    (heq : ", ".intercalate tokens = ", ".intercalate tokens') : tokens = tokens' := by
  have hnil := intercalate_eq_empty_iff fun token ht => (h token ht).1
  have hnil' := intercalate_eq_empty_iff fun token ht => (h' token ht).1
  by_cases hne : tokens = []
  · rw [hne, hnil'.mp (heq ▸ hnil.mpr hne)]
  · have hne' : tokens' ≠ [] := fun hempty => hne (hnil.mp (heq.trans (hnil'.mpr hempty)))
    refine eq_of_flatMap_eq (fun token ht => (h token ht).2) (fun token ht => (h' token ht).2) ?_
    rw [← toList_intercalate_append hne, heq, toList_intercalate_append hne']

end Text

namespace Member

/-! ### Parts -/

/-- What the title of an owned entry shows. -/
structure Parts where
  owner : String
  isStatic : Bool
  variant : Variant
  name : String
  parameters : List String
  /-- Only a method shows parameters. -/
  eq_nil_of_ne : variant ≠ .method → parameters = [] := by decide

namespace Parts

/-- How what is shown is used. -/
def call (p : Parts) : String :=
  match p.variant with
  | .method => p.name ++ "(" ++ ", ".intercalate p.parameters ++ ")"
  | .getter => p.name
  | .setter => p.name ++ "="

/-- The title that shows the parts. -/
def text (p : Parts) : String :=
  p.owner ++ Title.joiner p.isStatic ++ p.call

/-- No name holds a mark that ends it, and none is empty. -/
structure IsPlain (p : Parts) : Prop where
  owner : '.' ∉ p.owner.toList ∧ '#' ∉ p.owner.toList
  name : p.name ≠ "" ∧ ∀ c ∈ ['(', ')', '='], c ∉ p.name.toList
  parameters : ∀ token ∈ p.parameters, token ≠ "" ∧ ∀ c ∈ ['(', ')', ','], c ∉ token.toList

end Parts

/-- The title of an owned entry shows `p`. -/
structure Shows (source : List UInt8) (o : Member) (p : Parts) : Prop where
  owner : o.owner.displayName source = .ok p.owner
  isStatic : Declaration.isStatic o.node = p.isStatic
  variant : o.variant = p.variant
  name : o.name source = .ok p.name
  parameters : p.variant = .method → o.node.parameterTexts source = .ok p.parameters

/-- **The title of an owned entry** is the text of what it shows. -/
theorem Shows.title_eq {source : List UInt8} {o : Member} {p : Parts} (h : o.Shows source p) :
    o.title source = .ok p.text := by
  -- a name is never empty, so it is shown as it is
  have hname : p.name = o.node.shownName source :=
    (reads_displayName source o.node).eq_of_ok h.name
  have hcall : o.callText source = .ok p.call := by
    rw [callText, h.name, h.variant, Parts.call, hname]
    cases hvariant : p.variant with
    | method =>
      change (o.node.parameterTexts source >>= fun parameters => _) = _
      rw [h.parameters hvariant, ← Title.call_shownName]
      rfl
    | getter => rfl
    | setter =>
      rw [← Title.setter_shownName]
      rfl
  rw [title, h.owner, hcall, h.isStatic]
  rfl

/-! ### Finding the parts back -/

namespace Parts

variable {p q : Parts}

/-- The mark that ends the name of the owner. -/
def mark (isStatic : Bool) : Char :=
  if isStatic then '.' else '#'

private theorem mark_inj : ∀ {isStatic isStatic' : Bool}, mark isStatic = mark isStatic' →
    isStatic = isStatic' := by
  decide

/-- The name of an owner does not hold its mark, nor that of another. -/
private theorem IsPlain.mark_not_mem (h : p.IsPlain) (isStatic : Bool) :
    mark isStatic ∉ p.owner.toList := by
  cases isStatic with
  | true => exact h.owner.1
  | false => exact h.owner.2

/-- The characters of a title. -/
private theorem toList_text (p : Parts) :
    p.text.toList = p.owner.toList ++ mark p.isStatic :: p.call.toList := by
  rw [text, Title.joiner, mark]
  cases p.isStatic <;> simp

/-- A method is called with its parameters. -/
private theorem toList_call (h : p.variant = .method) : p.call.toList =
    p.name.toList ++ '(' :: (", ".intercalate p.parameters ++ ")").toList := by
  rw [call, h]
  simp

/-- The last character tells a method and a setter. -/
private theorem IsPlain.getLast?_call (h : p.IsPlain) :
    (p.call.toList.getLast? = some ')' ↔ p.variant = .method) ∧
    (p.call.toList.getLast? = some '=' ↔ p.variant = .setter) := by
  rw [call]
  cases hvariant : p.variant with
  | method =>
    rw [String.toList_append, show ")".toList = [')'] from rfl, List.getLast?_concat]
    decide
  | setter =>
    rw [String.toList_append, show "=".toList = ['='] from rfl, List.getLast?_concat]
    decide
  | getter =>
    -- the name of a getter ends with neither mark
    have hne (c : Char) (hc : c ∈ ['(', ')', '=']) : p.name.toList.getLast? ≠ some c :=
      fun hlast => h.name.2 c hc (List.mem_of_getLast? hlast)
    exact ⟨iff_of_false (hne ')' (by decide)) nofun, iff_of_false (hne '=' (by decide)) nofun⟩

/-- The use tells the variant. -/
private theorem IsPlain.variant_eq (hp : p.IsPlain) (hq : q.IsPlain) (h : p.call = q.call) :
    p.variant = q.variant := by
  obtain ⟨hmethod, hsetter⟩ := hp.getLast?_call
  obtain ⟨hmethod', hsetter'⟩ := hq.getLast?_call
  rw [h, hmethod'] at hmethod
  rw [h, hsetter'] at hsetter
  cases hvariant : p.variant with
  | method => exact (hmethod.mpr hvariant).symm
  | setter => exact (hsetter.mpr hvariant).symm
  | getter =>
    cases hvariant' : q.variant with
    | getter => rfl
    | method => exact absurd (hmethod.mp hvariant') (by rw [hvariant]; decide)
    | setter => exact absurd (hsetter.mp hvariant') (by rw [hvariant]; decide)

/-- **The use** of what is shown tells its name and its parameters. -/
theorem IsPlain.call_inj (hp : p.IsPlain) (hq : q.IsPlain) (h : p.call = q.call) :
    p.name = q.name ∧ p.parameters = q.parameters := by
  have hsame := hp.variant_eq hq h
  have hnone (hne : p.variant ≠ .method) : p.parameters = q.parameters := by
    rw [p.eq_nil_of_ne hne, q.eq_nil_of_ne (hsame ▸ hne)]
  cases hvariant : p.variant with
  | getter =>
    rw [call, call, ← hsame, hvariant] at h
    exact ⟨h, hnone (by rw [hvariant]; decide)⟩
  | setter =>
    rw [call, call, ← hsame, hvariant] at h
    exact ⟨(String.append_left_inj "=").mp h, hnone (by rw [hvariant]; decide)⟩
  | method =>
    have hopen := congrArg String.toList h
    rw [toList_call hvariant, toList_call (hsame ▸ hvariant)] at hopen
    obtain ⟨hname, -, hrest⟩ := Text.append_cons_inj (hq.name.2 '(' (by decide))
      (hp.name.2 '(' (by decide)) hopen
    refine ⟨String.toList_inj.mp hname, Text.intercalate_comma_inj ?_ ?_ ?_⟩
    · exact fun token ht => ⟨(hp.parameters token ht).1, (hp.parameters token ht).2 ',' (by decide)⟩
    · exact fun token ht => ⟨(hq.parameters token ht).1, (hq.parameters token ht).2 ',' (by decide)⟩
    · exact (String.append_left_inj ")").mp (String.toList_inj.mp hrest)

/-- **A title** tells all that it shows. -/
theorem IsPlain.text_inj (hp : p.IsPlain) (hq : q.IsPlain) (h : p.text = q.text) : p = q := by
  have hlist := congrArg String.toList h
  rw [toList_text, toList_text] at hlist
  obtain ⟨howner, hmark, hrest⟩ :=
    Text.append_cons_inj (hq.mark_not_mem _) (hp.mark_not_mem _) hlist
  have hcall : p.call = q.call := String.toList_inj.mp hrest
  obtain ⟨hname, hparameters⟩ := hp.call_inj hq hcall
  have hvariant := hp.variant_eq hq hcall
  cases p
  cases q
  simp only [mk.injEq]
  exact ⟨String.toList_inj.mp howner, mark_inj hmark, hvariant, hname, hparameters⟩

end Parts

/-- **Titles are unambiguous.** Two owned entries, of whatever modules, have the same title exactly
when they show the same: an owner of one name, belonging to it in the same way, and an entry of one
variant and one name with the same parameters. -/
theorem title_eq_title_iff {source source' : List UInt8} {o o' : Member} {p p' : Parts}
    (h : o.Shows source p) (h' : o'.Shows source' p') (hp : p.IsPlain) (hp' : p'.IsPlain) :
    o.title source = o'.title source' ↔ p = p' := by
  rw [h.title_eq, h'.title_eq, Except.ok.injEq]
  constructor
  · exact hp.text_inj hp'
  · exact congrArg Parts.text

/-- `class A { static b(x) {} b(x) {} }` -/
def twinSource : List UInt8 :=
  "class A \x7b static b(x) \x7b\x7d b(x) \x7b\x7d \x7d".toUTF8.toList

/-- A method `b(x)` that starts at `start` and has its name at `name`. -/
def twinMethod (start name : Nat) (tokens : List Tree) : Tree :=
  .node ⟨"method_definition", start, name + 7, true, false, ""⟩
    (tokens ++ [.node ⟨"property_identifier", name, name + 1, true, false, "name"⟩ [],
      .node ⟨"formal_parameters", name + 1, name + 4, true, false, "parameters"⟩
        [.node ⟨"required_parameter", name + 2, name + 3, true, false, ""⟩
          [.node ⟨"identifier", name + 2, name + 3, true, false, "pattern"⟩ []]]])

/-- The method of the class itself, or the one of its instances. -/
def twin (isStatic : Bool) : Member where
  variant := .method
  owner := ⟨.node ⟨"class_declaration", 0, 34, true, false, ""⟩
    [.node ⟨"type_identifier", 6, 7, true, false, "name"⟩ [],
      .node ⟨"class_body", 8, 34, true, false, "body"⟩
        [twinMethod 10 17 [.node ⟨"static", 10, 16, false, false, ""⟩ []], twinMethod 25 25 []]],
    some "program"⟩
  node := ⟨if isStatic then twinMethod 10 17 [.node ⟨"static", 10, 16, false, false, ""⟩ []]
    else twinMethod 25 25 [], some "class_body"⟩

/-- What the title of one of them shows. -/
def twinParts (isStatic : Bool) : Parts :=
  ⟨"A", isStatic, .method, "b", ["x"], nofun⟩

/-- Two methods of one name and one row of parameters are told apart by where they belong. -/
theorem title_eq_title_iff_twin :
    (∀ isStatic, (twin isStatic).Shows twinSource (twinParts isStatic) ∧
      (twinParts isStatic).IsPlain) ∧
    (twin true).title twinSource ≠ (twin false).title twinSource := by
  have hshows (isStatic : Bool) : (twin isStatic).Shows twinSource (twinParts isStatic) := by
    cases isStatic <;>
      exact ⟨Except.eq_ok_of_exists (by decide +kernel), rfl, rfl,
        Except.eq_ok_of_exists (by decide +kernel),
        fun _ => Except.eq_ok_of_exists (by decide +kernel)⟩
  have hplain (isStatic : Bool) : (twinParts isStatic).IsPlain := by
    constructor <;> simp [twinParts]
  refine ⟨fun isStatic => ⟨hshows isStatic, hplain isStatic⟩, ?_⟩
  rw [ne_eq, title_eq_title_iff (hshows true) (hshows false) (hplain true) (hplain false)]
  exact fun h => Bool.noConfusion (congrArg Parts.isStatic h)

end Member

end ApiOutline
