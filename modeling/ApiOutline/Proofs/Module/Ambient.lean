import ApiOutline.Listing
import ApiOutline.Proofs.Module.Entries
import Mathlib.Data.List.Forall2

/-!
# What stands behind `declare`

A declaration may be wrapped by `declare`, at the top of a module or in the export statement that
exports it. Wrapping any of them changes nothing about what the module exports: the same nodes are
listed, in the same order, under the same entries with the same titles and the same members, with
the same notes on the way, and where one of the modules cannot be told the other fails in the same
way (`listings_of_declares`). References are looked up by name, so it does not matter which of two
statements that refer to one another is wrapped.

A node that is wrapped has another parent, and its field is that of the wrapper now; everything
else about it is kept, and its children are the very same. The parent of a node counts in one
place only, where a method is told from a constructor, and no such node has an entry of its own.

An export statement is no declaration and is not wrapped, and nothing is said of a value that is
exported as an expression.
-/

namespace ApiOutline

/-! ### Results that correspond -/

/-- Two results are values that correspond, or one and the same failure. -/
inductive Except.Rel {ε α β : Type} (R : α → β → Prop) : Except ε α → Except ε β → Prop
  | ok {a : α} {b : β} (h : R a b) : Rel R (.ok a) (.ok b)
  | error (e : ε) : Rel R (.error e) (.error e)

/-- Two computations leave one trace, and their results correspond. -/
structure Outcome.Rel {ε α β : Type} (R : α → β → Prop) (x : Outcome ε α) (y : Outcome ε β) :
    Prop where
  trace : x.trace = y.trace
  result : Except.Rel R x.result y.result

section Rel

variable {ε ε' α β γ δ : Type} {R : α → β → Prop} {S : γ → δ → Prop}

namespace Except.Rel

variable {x : Except ε α} {y : Except ε β}

theorem refl {R : α → α → Prop} (hR : ∀ a, R a a) (x : Except ε α) : Except.Rel R x x := by
  cases x with
  | ok a => exact .ok (hR a)
  | error e => exact .error e

theorem eq {x y : Except ε α} (h : Except.Rel Eq x y) : x = y := by
  cases h with
  | ok h => rw [h]
  | error e => rfl

theorem mapError {f : ε → ε'} (h : Except.Rel R x y) :
    Except.Rel R (x.mapError f) (y.mapError f) := by
  cases h with
  | ok h => exact .ok h
  | error e => exact .error (f e)

/-- **One after the other** they correspond. -/
theorem bind {f : α → Except ε γ} {g : β → Except ε δ} (h : Except.Rel R x y)
    (hf : ∀ a b, R a b → Except.Rel S (f a) (g b)) : Except.Rel S (x >>= f) (y >>= g) := by
  cases h with
  | ok h => exact hf _ _ h
  | error e => exact .error e

/-- What comes after the same. -/
theorem after {f : α → Except ε γ} {g : α → Except ε δ} (x : Except ε α)
    (hf : ∀ a, Except.Rel S (f a) (g a)) : Except.Rel S (x >>= f) (x >>= g) := by
  cases x with
  | ok a => exact hf a
  | error e => exact .error e

end Except.Rel

namespace Outcome.Rel

variable {x : Outcome ε α} {y : Outcome ε β}

theorem refl {R : α → α → Prop} (hR : ∀ a, R a a) (x : Outcome ε α) : Outcome.Rel R x x :=
  ⟨rfl, .refl hR x.result⟩

theorem eq {x y : Outcome ε α} (h : Outcome.Rel Eq x y) : x = y := by
  obtain ⟨trace, result⟩ := x
  obtain ⟨trace', result'⟩ := y
  obtain ⟨htrace, hresult⟩ := h
  exact congrArg₂ Outcome.mk htrace hresult.eq

theorem ofExcept {x : Except ε α} {y : Except ε β} (h : Except.Rel R x y) :
    Outcome.Rel R (.ofExcept x) (.ofExcept y) :=
  ⟨rfl, h⟩

theorem ok {a : α} {b : β} (h : R a b) : Outcome.Rel R (.ok a : Outcome ε α) (.ok b) :=
  ⟨rfl, .ok h⟩

theorem mapError {f : ε → ε'} (h : Outcome.Rel R x y) :
    Outcome.Rel R (x.mapError f) (y.mapError f) :=
  ⟨h.trace, h.result.mapError⟩

/-- **One after the other** they correspond, if they do for the values that the first ones
have. -/
theorem bind {f : α → Outcome ε γ} {g : β → Outcome ε δ} (h : Outcome.Rel R x y)
    (hf : ∀ a b, x.result = .ok a → y.result = .ok b → R a b → Outcome.Rel S (f a) (g b)) :
    Outcome.Rel S (x >>= f) (y >>= g) := by
  obtain ⟨trace, result⟩ := x
  obtain ⟨trace', result'⟩ := y
  obtain ⟨rfl, hresult⟩ := h
  cases hresult with
  | ok hab =>
    obtain ⟨htrace, hresult⟩ := hf _ _ rfl rfl hab
    exact ⟨congrArg (trace ++ ·) htrace, hresult⟩
  | error e => exact ⟨rfl, .error e⟩

theorem after {f : α → Outcome ε γ} {g : α → Outcome ε δ} (x : Outcome ε α)
    (hf : ∀ a, Outcome.Rel S (f a) (g a)) : Outcome.Rel S (x >>= f) (x >>= g) :=
  (refl (fun _ => rfl) x).bind fun a b _ _ (hab : a = b) => hab ▸ hf a

end Outcome.Rel

/-- Lists that correspond item by item correspond at the first item that is looked for. -/
private theorem List.forall₂_find? {R : α → β → Prop} {p : α → Bool} {q : β → Bool} {l : List α}
    {l' : List β} (h : List.Forall₂ R l l') (hpq : ∀ a b, R a b → p a = q b) :
    Option.Rel R (l.find? p) (l'.find? q) := by
  induction h with
  | nil => exact .none
  | @cons a b _ _ hab _ ih =>
    rw [List.find?_cons, List.find?_cons, hpq a b hab]
    cases q b with
    | true => exact .some hab
    | false => exact ih

end Rel

/-! ### Nodes but for where they stand -/

/-- A tree that fills another field. -/
def Tree.inField (t : Tree) (field : String) : Tree :=
  .node { t.label with field } t.children

/-- A node without regard to where it stands. -/
def Node.bare (n : Node) : Node :=
  ⟨n.tree.inField "", none⟩

/-- Two nodes are one but for where they stand: for their parents and the fields they fill. -/
def Node.Like (n n' : Node) : Prop :=
  n.bare = n'.bare

namespace Node.Like

variable {n n' : Node}

theorem refl (n : Node) : n.Like n := rfl

/-- What does not regard where a node stands cannot tell the two apart. -/
private theorem eq_of_bare {α : Type} (h : n.Like n') {f : Node → α} (hf : ∀ n, f n.bare = f n) :
    f n = f n' := by
  rw [← hf n, ← hf n', show n.bare = n'.bare from h]

variable (h : n.Like n')

include h

private theorem kind_eq : n.kind = n'.kind :=
  h.eq_of_bare fun _ => rfl

private theorem namedChildren_eq : n.namedChildren = n'.namedChildren :=
  h.eq_of_bare fun _ => rfl

private theorem key_eq : n.key = n'.key :=
  h.eq_of_bare fun _ => rfl

theorem line_eq (source : List UInt8) : n.line source = n'.line source :=
  h.eq_of_bare fun _ => rfl

private theorem name?_eq (source : List UInt8) :
    Declaration.name? source n = Declaration.name? source n' :=
  h.eq_of_bare fun _ => rfl

private theorem body?_eq : Declaration.body? n = Declaration.body? n' :=
  h.eq_of_bare fun _ => rfl

private theorem displayName_eq (source : List UInt8) :
    n.displayName source = n'.displayName source := by
  rw [Node.displayName, Node.displayName, h.name?_eq]

/-- Where there is no list of parameters, the children of the node itself are looked at. -/
private theorem parameterTexts_eq (source : List UInt8) :
    n.parameterTexts source = n'.parameterTexts source := by
  have hlist (n : Node) : (Declaration.parameterList n.bare).namedChildren =
      (Declaration.parameterList n).namedChildren := by
    rw [Declaration.parameterList, Declaration.parameterList]
    change ((n.child? "parameters" <|> n.namedChildren.find? fun c =>
      c.kind == "formal_parameters").getD n.bare).namedChildren = _
    cases (n.child? "parameters" <|> n.namedChildren.find? fun c =>
      c.kind == "formal_parameters") <;> rfl
  rw [Node.parameterTexts, Node.parameterTexts, Declaration.parameters, Declaration.parameters,
    h.eq_of_bare (f := fun n => (Declaration.parameterList n).namedChildren) hlist]

end Node.Like

/-! ### Wrapped declarations -/

/-- A declaration is wrapped: the wrapper takes its place, and the first node in it that is no block
is the declaration. -/
structure Tree.Wraps (t w : Tree) : Prop where
  kind : w.kind = "ambient_declaration"
  named : w.label.named = true
  field : w.label.field = t.label.field
  inner : ∃ field, w.namedChildren.find? (fun c => c.kind != "statement_block") =
    some (t.inField field)
  plain : t.kind ≠ "ambient_declaration"

/-- A statement is the same, or a declaration that is wrapped, or it exports one that is. -/
inductive Tree.Declares : Tree → Tree → Prop
  | same (t : Tree) : Declares t t
  | wrapped {t w : Tree} (h : t.Wraps w) (hkind : t.kind ≠ "export_statement") : Declares t w
  | exported {l : Label} {ts ts' : List Tree} (hkind : l.kind = "export_statement")
    (h : List.Forall₂ (fun t t' => t = t' ∨ t.label.field = "declaration" ∧ t.Wraps t') ts ts') :
    Declares (.node l ts) (.node l ts')

/-- Some of the declarations of a module are wrapped, those at its top and those that it exports
directly. -/
structure Module.Declares (m m' : Module) : Prop where
  path : m.path = m'.path
  source : m.source = m'.source
  label : m.tree.label = m'.tree.label
  statements : List.Forall₂ Tree.Declares m.tree.children m'.tree.children

private theorem Tree.Wraps.named_inner {t w : Tree} (h : t.Wraps w) : t.label.named = true := by
  obtain ⟨field, hinner⟩ := h.inner
  exact (List.mem_filter.mp (List.mem_of_find?_eq_some hinner)).2

/-- Statements are told from tokens alike. -/
private theorem Tree.Declares.named_iff {t t' : Tree} (h : t.Declares t') :
    t.label.named = true ↔ t'.label.named = true := by
  cases h with
  | same => exact Iff.rfl
  | wrapped hwraps _ => exact iff_of_true hwraps.named_inner hwraps.named
  | exported => exact Iff.rfl

/-- An export statement stays one, and nothing becomes one. -/
private theorem Tree.Declares.isExport_eq {t t' : Tree} (h : t.Declares t') :
    (t.kind == "export_statement") = (t'.kind == "export_statement") := by
  cases h with
  | same => rfl
  | wrapped hwraps hne =>
    rw [hwraps.kind, beq_eq_false_iff_ne.mpr hne]
    rfl
  | exported => rfl

namespace Exports

variable {n n' : Node}

/-- Two nodes make the same declaration statement, wrapped or not. -/
def Same (n n' : Node) : Prop :=
  Option.Rel Node.Like (unwrap n) (unwrap n')

private theorem Same.of_like (h : n.Like n') : Same n n' := by
  rw [Same, unwrap, unwrap, h.kind_eq, h.namedChildren_eq]
  split
  · cases n'.namedChildren.find? fun c => c.kind != "statement_block" with
    | none => exact .none
    | some d => exact .some (.refl d)
  · exact .some h

/-- **A wrapper** is the declaration in it. -/
theorem Same.of_wraps (h : n.tree.Wraps n'.tree) : Same n n' := by
  obtain ⟨field, hinner⟩ := h.inner
  have hplain : n.kind ≠ "ambient_declaration" := h.plain
  have hkind : n'.kind = "ambient_declaration" := h.kind
  have hunwrap : unwrap n = some n := by rw [unwrap, if_neg (by simpa using hplain)]
  have hunwrap' : unwrap n' = some ⟨n.tree.inField field, some n'.kind⟩ := by
    rw [unwrap, if_pos (by simpa using hkind), Node.namedChildren, List.find?_map]
    exact congrArg (Option.map (Node.mk · (some n'.kind))) hinner
  rw [Same, hunwrap, hunwrap']
  exact .some rfl

/-- The same statement introduces the same declarations. -/
private theorem rel_expand (source : List UInt8) (h : Same n n') :
    Except.Rel (List.Forall₂ Node.Like) (expand source n) (expand source n') := by
  rw [Same] at h
  rw [expand, expand]
  generalize unwrap n = d, unwrap n' = d' at h
  cases h with
  | none => exact .ok .nil
  | some h =>
    dsimp only
    rw [h.kind_eq, h.namedChildren_eq]
    split
    · exact .refl (fun nodes => List.forall₂_same.mpr fun n _ => .refl n) _
    · exact .ok (.cons h .nil)

/-! ### The index of names -/

/-- Two entries of an index have one name, and nodes that are alike. -/
def SameName (entry entry' : String × Node) : Prop :=
  entry.1 = entry'.1 ∧ entry.2.Like entry'.2

private theorem rel_withNames (source : List UInt8) {nodes nodes' : List Node}
    (h : List.Forall₂ Node.Like nodes nodes') :
    Except.Rel (List.Forall₂ SameName) (withNames source nodes) (withNames source nodes') := by
  induction h with
  | nil => exact .ok .nil
  | @cons n n' _ _ hn _ ih =>
    rw [withNames, withNames, hn.name?_eq]
    refine .after _ fun name => ih.bind fun others others' hothers => ?_
    cases name with
    | none => exact .ok hothers
    | some name => exact .ok (.cons ⟨rfl, hn⟩ hothers)

/-- What is looked up in one index and in another. -/
private theorem rel_bearing {index index' : List (String × Node)}
    (h : List.Forall₂ SameName index index')
    (name : String) : List.Forall₂ Node.Like (bearing index name) (bearing index' name) := by
  induction h with
  | nil => exact .nil
  | @cons entry entry' _ _ hentry _ ih =>
    rw [bearing, bearing, List.filter_cons, List.filter_cons, hentry.1]
    split
    · exact .cons hentry.2 ih
    · exact ih

private theorem rel_lookupAll (source : List UInt8) {index index' : List (String × Node)}
    (h : List.Forall₂ SameName index index') (nodes : List Node) :
    Except.Rel (List.Forall₂ Node.Like) (lookupAll source index nodes)
      (lookupAll source index' nodes) := by
  induction nodes with
  | nil => exact .ok .nil
  | cons n rest ih =>
    rw [lookupAll, lookupAll]
    exact .after _ fun name => ih.bind fun _ _ hothers =>
      .ok (List.rel_append (rel_bearing h name) hothers)

private theorem rel_exportedValue (source : List UInt8) {index index' : List (String × Node)}
    (h : List.Forall₂ SameName index index') (value : Node) :
    Except.Rel (List.Forall₂ Node.Like) (exportedValue source index value)
      (exportedValue source index' value) := by
  rw [exportedValue, exportedValue]
  split
  · exact .after (value.text source) fun name => .ok (rel_bearing h name)
  · split
    · exact .ok (.cons (.refl value) .nil)
    · exact .ok .nil

/-! ### Statements one by one -/

/-- In an export statement, a child is the same, or the declaration that is exported, wrapped. -/
def SameChild (t t' : Tree) : Prop :=
  t = t' ∨ t.label.field = "declaration" ∧ t.Wraps t'

private theorem SameChild.field_eq {t t' : Tree} (h : SameChild t t') :
    t.label.field = t'.label.field := by
  rcases h with rfl | ⟨-, hwraps⟩
  · rfl
  · exact hwraps.field.symm

theorem SameChild.same {t t' : Tree} (h : SameChild t t') (parent : Option String) :
    Same ⟨t, parent⟩ ⟨t', parent⟩ := by
  rcases h with rfl | ⟨-, hwraps⟩
  · exact .of_like (.refl _)
  · exact .of_wraps hwraps

section Statement

variable {t t' : Tree} {parent : Option String}

/-- What an export statement exports directly is the same. -/
private theorem rel_child? (parent : Option String) (h : t.Declares t')
    (hkind : t.kind = "export_statement") :
    Option.Rel Same ((Node.mk t parent).child? "declaration")
      ((Node.mk t' parent).child? "declaration") := by
  cases h with
  | same =>
    cases (Node.mk t parent).child? "declaration" with
    | none => exact .none
    | some d => exact .some (.of_like (.refl d))
  | wrapped _ hne => exact absurd hkind hne
  | @exported l ts ts' _ h =>
    have hfind : Option.Rel SameChild (ts.find? fun c => c.label.field == "declaration")
        (ts'.find? fun c => c.label.field == "declaration") :=
      List.forall₂_find? h fun a b hab => by rw [SameChild.field_eq hab]
    change Option.Rel Same ((ts.find? fun c => c.label.field == "declaration").map _)
      ((ts'.find? fun c => c.label.field == "declaration").map _)
    generalize ts.find? _ = c, ts'.find? _ = c' at hfind ⊢
    cases hfind with
    | none => exact .none
    | some hchild => exact .some (hchild.same _)

/-- An export statement without a declaration is the same. -/
private theorem eq_of_child?_eq_none (h : t.Declares t') (hkind : t.kind = "export_statement")
    (hnone : (Node.mk t parent).child? "declaration" = none) : t = t' := by
  cases h with
  | same => rfl
  | wrapped _ hne => exact absurd hkind hne
  | @exported l ts ts' _ h =>
    have hfields : ∀ c ∈ ts, c.label.field ≠ "declaration" := by
      have hfind : ts.find? (fun c => c.label.field == "declaration") = none :=
        Option.map_eq_none_iff.mp hnone
      simpa using hfind
    refine congrArg (Tree.node l) ?_
    clear hnone hkind
    induction h with
    | nil => rfl
    | cons hchild _ ih =>
      obtain ⟨hfield, hrest⟩ := List.forall_mem_cons.mp hfields
      rw [ih hrest, hchild.resolve_right fun hwraps => hfield hwraps.1]

/-- A statement declares the same at the top of the module. -/
private theorem rel_declarationOf (parent : Option String) (h : t.Declares t') :
    Option.Rel Same (declarationOf ⟨t, parent⟩) (declarationOf ⟨t', parent⟩) := by
  rw [declarationOf, declarationOf, Node.kind, Node.kind, ← h.isExport_eq]
  split
  · next hexport => exact rel_child? parent h (beq_iff_eq.mp hexport)
  · next hexport =>
    cases h with
    | same => exact .some (.of_like (.refl _))
    | wrapped hwraps _ => exact .some (.of_wraps hwraps)
    | exported hexport' _ => exact absurd (beq_iff_eq.mpr hexport') hexport

/-- **An export statement** exports the same. -/
theorem rel_resolve (source : List UInt8) {index index' : List (String × Node)}
    (hindex : List.Forall₂ SameName index index') (h : t.Declares t')
    (hkind : t.kind = "export_statement") :
    Outcome.Rel (List.Forall₂ Node.Like) (resolve source index ⟨t, parent⟩)
      (resolve source index' ⟨t', parent⟩) := by
  have hchild := rel_child? parent h hkind
  cases hdeclaration : (Node.mk t parent).child? "declaration" with
  | some d =>
    rw [hdeclaration] at hchild
    rw [resolve, resolve, hdeclaration]
    generalize (Node.mk t' parent).child? "declaration" = d' at hchild ⊢
    cases hchild with
    | some hsame => exact .ofExcept (rel_expand source hsame)
  | none =>
    obtain rfl := eq_of_child?_eq_none h hkind hdeclaration
    rw [resolve, resolve, hdeclaration]
    dsimp only
    split
    · exact .refl (fun nodes => List.forall₂_same.mpr fun n _ => .refl n) _
    · split
      · exact .ofExcept (rel_exportedValue source hindex _)
      · exact .ofExcept (rel_lookupAll source hindex _)

end Statement

/-! ### Whole modules -/

variable {ts ts' : List Tree}

/-- Statements that declare the same, one by one, are indexed by the same names. -/
private theorem rel_locals (source : List UInt8) (parent : Option String)
    (h : List.Forall₂ Tree.Declares ts ts') :
    Except.Rel (List.Forall₂ SameName) (locals source (ts.map (⟨·, parent⟩)))
      (locals source (ts'.map (⟨·, parent⟩))) := by
  induction h with
  | nil => exact .ok .nil
  | @cons t t' _ _ hdeclares _ ih =>
    rw [List.map_cons, List.map_cons, locals, locals]
    have hdeclaration := rel_declarationOf parent hdeclares
    generalize declarationOf ⟨t, parent⟩ = d, declarationOf ⟨t', parent⟩ = d' at hdeclaration ⊢
    cases hdeclaration with
    | none => exact ih
    | some hsame =>
      refine (rel_expand source hsame).bind fun nodes nodes' hnodes => ?_
      refine (rel_withNames source hnodes).bind fun named named' hnamed => ?_
      exact ih.bind fun others others' hothers => .ok (List.rel_append hnamed hothers)

private theorem rel_resolveAll (source : List UInt8) {index index' : List (String × Node)}
    (hindex : List.Forall₂ SameName index index') (parent : Option String)
    (h : List.Forall₂ Tree.Declares ts ts') :
    Outcome.Rel (List.Forall₂ Node.Like) (resolveAll source index (ts.map (⟨·, parent⟩)))
      (resolveAll source index' (ts'.map (⟨·, parent⟩))) := by
  induction h with
  | nil => exact .ok .nil
  | @cons t t' _ _ hdeclares _ ih =>
    rw [List.map_cons, List.map_cons, resolveAll, resolveAll, Node.kind, Node.kind,
      ← hdeclares.isExport_eq]
    split
    · next hexport =>
      refine (rel_resolve source hindex hdeclares (beq_iff_eq.mp hexport)).bind
        fun nodes nodes' _ _ hnodes => ?_
      exact ih.bind fun others others' _ _ hothers => .ok (List.rel_append hnodes hothers)
    · exact ih

/-- Nodes that are alike have the same keys, so the same ones of them are listed. -/
private theorem rel_firstByKey (seen : List (Nat × Nat × String)) {nodes nodes' : List Node}
    (h : List.Forall₂ Node.Like nodes nodes') :
    List.Forall₂ Node.Like (firstByKey seen nodes) (firstByKey seen nodes') := by
  induction h generalizing seen with
  | nil => exact .nil
  | cons hn _ ih =>
    rw [firstByKey, firstByKey, hn.key_eq]
    split
    · exact ih seen
    · exact .cons hn (ih _)

/-- **The exports** are the same. -/
theorem rel_list {m m' : Module} (h : m.Declares m') :
    Outcome.Rel (List.Forall₂ Node.Like) (list m) (list m') := by
  have hstatements : List.Forall₂ Tree.Declares m.tree.namedChildren m'.tree.namedChildren :=
    List.rel_filter (fun _ _ hdeclares => hdeclares.named_iff) h.statements
  have hparent : m.root.kind = m'.root.kind := congrArg Tree.Label.kind h.label
  rw [list, list, Node.namedChildren, Node.namedChildren, ← h.source, ← hparent]
  refine (Outcome.Rel.ofExcept (rel_locals m.source _ hstatements)).bind ?_
  intro index index' _ _ hindex
  refine (rel_resolveAll m.source hindex _ hstatements).bind fun nodes nodes' _ _ hnodes => ?_
  exact .ok (rel_firstByKey [] hnodes)

/-! ### Names that have been read -/

variable {m : Module}

/-- What a module exports is declared at its top, or is a class or a function that is a value. -/
private theorem mem_declared_of_mem_resolution {statement : Node}
    (hstatement : statement ∈ exporting m)
    (h : n ∈ resolution m statement) :
    n ∈ declared m ∨ n.kind ∈ Declaration.classKinds ∨ n.kind ∈ Declaration.functionKinds := by
  obtain ⟨hmem, hkind⟩ := List.mem_filter.mp hstatement
  rw [resolution] at h
  cases hdeclaration : statement.child? "declaration" with
  | some d =>
    rw [hdeclaration] at h
    have hdeclaring : d ∈ declaring statement := by
      rw [declaring, if_pos (by simpa using hkind), hdeclaration]
      exact List.mem_singleton_self d
    exact .inl (List.mem_flatMap.mpr ⟨d, List.mem_flatMap.mpr ⟨statement, hmem, hdeclaring⟩, h⟩)
  | none =>
    rw [hdeclaration] at h
    -- whatever is referred to by name is declared
    have hsharing {c : Node} (hc : n ∈ sharing m c) : n ∈ declared m := (List.mem_filter.mp hc).1
    split at h
    · cases ‹none = some _›
    · cases h
    · split_ifs at h with hidentifier hvalue
      · exact .inl (hsharing h)
      · rw [List.mem_singleton.mp h]
        exact .inr hvalue
      · cases h
    · obtain ⟨_, -, h⟩ := List.mem_flatMap.mp h
      exact .inl (hsharing h)

/-- **The kinds of all exports** can be told once they are listed, since their names have been
read for the index. -/
theorem decodes_kindNodes {nodes : List Node} (h : (list m).result = .ok nodes) (hn : n ∈ nodes) :
    ∀ c ∈ Declaration.kindNodes n, c.Decodes m.source := by
  have hdecodes := (reads_list m).decodes nodes h
  obtain rfl := (reads_list m).eq_of_ok h
  obtain ⟨statement, hstatement, hresolution⟩ :=
    List.mem_flatMap.mp (List.mem_of_find?_eq_some (find?_of_mem_firstByKey hn))
  intro c hc
  rw [Declaration.kindNodes] at hc
  split_ifs at hc with hmethod
  · rcases mem_declared_of_mem_resolution hstatement hresolution with hdeclared | hvalue
    · obtain ⟨d, hd, hintroduced⟩ := List.mem_flatMap.mp hdeclared
      refine hdecodes c (List.mem_append_left _ ?_)
      have hname : c ∈ Declaration.nameNodes (candidates d) :=
        (mem_nameNodes_candidates m.source d c).mpr (List.mem_append_right _
          (List.mem_filterMap.mpr ⟨n, hintroduced, Option.mem_toList.mp hc⟩))
      obtain ⟨n', hn', hname⟩ := List.mem_filterMap.mp hname
      exact List.mem_filterMap.mpr ⟨n', List.mem_flatMap.mpr ⟨d, hd, hn'⟩, hname⟩
    · -- a class or a function is no method
      have hdisjoint : ∀ kind ∈ Declaration.methodKinds,
          kind ∉ Declaration.classKinds ∧ kind ∉ Declaration.functionKinds := by decide
      obtain ⟨hclass, hfunction⟩ := hdisjoint n.kind hmethod.1
      exact absurd hvalue (not_or.mpr ⟨hclass, hfunction⟩)
  · cases hc

end Exports

/-! ### Entries of like nodes -/

/-- Two entries that are owned are one but for where their owners stand. -/
structure Member.Like (source : List UInt8) (o o' : Member) : Prop where
  variant : o.variant = o'.variant
  owner : o.owner.Like o'.owner
  node : o.node = o'.node
  name : o.name source = o'.name source
  title : o.title source = o'.title source

/-- Two entries are one but for where their nodes stand, and own the same. -/
structure Entry.Like (source : List UInt8) (e e' : Entry) : Prop where
  variant : e.variant = e'.variant
  node : e.node.Like e'.node
  name : e.name source = e'.name source
  title : e.title source = e'.title source
  members : Outcome.Rel (List.Forall₂ (Member.Like source)) (e.members source) (e'.members source)

section Entries

variable {source : List UInt8} {n n' : Node}

namespace Member

private theorem Like.of_owner {owner owner' : Node} (h : owner.Like owner') (variant : Variant)
    (n : Node) : Like source ⟨variant, owner, n⟩ ⟨variant, owner', n⟩ where
  variant := rfl
  owner := h
  node := rfl
  name := rfl
  title := by
    rw [Member.title, Member.title, h.displayName_eq source]
    rfl

/-- The owner of a member counts by its name, in a note about what is dropped. -/
private theorem rel_ofNode {owner owner' : Node} (h : owner.Like owner') (n : Node) :
    Outcome.Rel (List.Forall₂ (Like source)) (ofNode source owner n) (ofNode source owner' n) := by
  rw [ofNode, ofNode, h.displayName_eq source]
  refine .after _ fun kind => ?_
  cases Variant.ofKind (Declaration.isReadonly n) kind with
  | nil => exact .after _ fun ownerName => .after _ fun _ => .ok .nil
  | cons first rest =>
    refine .ok ?_
    rw [List.forall₂_map_left_iff, List.forall₂_map_right_iff]
    exact List.forall₂_same.mpr fun variant _ => .of_owner h variant n

private theorem rel_ofNodes {owner owner' : Node} (h : owner.Like owner') (nodes : List Node) :
    Outcome.Rel (List.Forall₂ (Like source)) (ofNodes source owner nodes)
      (ofNodes source owner' nodes) := by
  induction nodes with
  | nil => exact .ok .nil
  | cons n rest ih =>
    exact (rel_ofNode h n).bind fun _ _ _ _ howned => ih.bind fun _ _ _ _ hothers =>
      .ok (List.rel_append howned hothers)

end Member

namespace Entry

/-- No method has an entry of its own. -/
private theorem ofKind?_of_method (h : n.kind ∈ Declaration.methodKinds) :
    Variant.ofKind? (Declaration.kindOf source n) = none := by
  rw [Declaration.kindOf_of_method h, Declaration.accessorKind]
  split_ifs <;> rfl

/-- **The variant of an entry** does not depend on where its node stands: a constructor is told from
other methods by the parent, but neither has an entry. -/
theorem ofKind?_kindOf_eq (h : n.Like n') :
    Variant.ofKind? (Declaration.kindOf source n) =
      Variant.ofKind? (Declaration.kindOf source n') := by
  by_cases hmethod : n.kind ∈ Declaration.methodKinds
  · rw [ofKind?_of_method hmethod, ofKind?_of_method (h.kind_eq ▸ hmethod)]
  · have hmethod' : n'.kind ∉ Declaration.methodKinds := h.kind_eq ▸ hmethod
    simp only [Declaration.kindOf, if_neg hmethod', h.kind_eq]

/-- The members of a class or an interface stand in its body. -/
private theorem members_of_owner (h : Declaration.kindOf source n = .classDecl ∨
    Declaration.kindOf source n = .interface) :
    Declaration.members source n = .ok ((Declaration.body? n).elim [] Node.namedChildren) := by
  have hkind : Declaration.kind source n = .ok (Declaration.kindOf source n) :=
    (Declaration.reads_kind source n).eq_ok (by simp [Declaration.kindNodes_of_owner h])
  rw [Declaration.members, hkind, Except.map, if_pos h]

private theorem rel_ownedBy (h : n.Like n')
    (howner : Declaration.kindOf source n = .classDecl ∨ Declaration.kindOf source n = .interface)
    (howner' : Declaration.kindOf source n' = .classDecl ∨
      Declaration.kindOf source n' = .interface) :
    Outcome.Rel (List.Forall₂ (Member.Like source))
      (.ofExcept (Declaration.members source n) >>= Member.ofNodes source n)
      (.ofExcept (Declaration.members source n') >>= Member.ofNodes source n') := by
  rw [members_of_owner howner, members_of_owner howner', h.body?_eq]
  exact .after _ fun nodes => Member.rel_ofNodes h nodes

/-- **Entries for like nodes**, of one variant, have the same name, the same title and the same
members. -/
theorem Like.of_node (h : n.Like n') {variant : Variant}
    (hkind : Declaration.kindOf source n = variant.declares)
    (hkind' : Declaration.kindOf source n' = variant.declares) :
    Like source ⟨variant, n⟩ ⟨variant, n'⟩ where
  variant := rfl
  node := h
  name := h.displayName_eq source
  title := by
    rw [Entry.title, Entry.title, Entry.name, Entry.name, h.displayName_eq source,
      h.parameterTexts_eq source]
  members := by
    cases variant with
    | classEntry => exact rel_ownedBy h (.inl hkind) (.inl hkind')
    | interface => exact rel_ownedBy h (.inr hkind) (.inr hkind')
    | _ => exact .ok .nil

/-- **A declaration** whose kind can be told has the same entry wherever it stands, or is dropped
with the same note. -/
theorem rel_ofDeclaration (h : n.Like n')
    (hdecodes : ∀ c ∈ Declaration.kindNodes n, c.Decodes source)
    (hdecodes' : ∀ c ∈ Declaration.kindNodes n', c.Decodes source) :
    Outcome.Rel (Option.Rel (Like source)) (ofDeclaration source n) (ofDeclaration source n') := by
  have hvariant : Variant.ofKind? (Declaration.kindOf source n) =
      Variant.ofKind? (Declaration.kindOf source n') := ofKind?_kindOf_eq h
  rw [ofDeclaration, ofDeclaration, (Declaration.reads_kind source n).eq_ok hdecodes,
    (Declaration.reads_kind source n').eq_ok hdecodes', h.kind_eq, h.line_eq]
  refine (Outcome.Rel.ofExcept (.ok (R := fun kind kind' =>
    kind = Declaration.kindOf source n ∧ kind' = Declaration.kindOf source n') ⟨rfl, rfl⟩)).bind ?_
  rintro kind kind' - - ⟨rfl, rfl⟩
  rw [← hvariant]
  cases hof : Variant.ofKind? (Declaration.kindOf source n) with
  | none => exact .after _ fun _ => .ok .none
  | some variant =>
    exact .ok (.some (.of_node h (Variant.ofKind?_eq_some_iff.mp hof).symm
      (Variant.ofKind?_eq_some_iff.mp (hvariant ▸ hof)).symm))

private theorem rel_ofDeclarations {nodes nodes' : List Node}
    (h : List.Forall₂ Node.Like nodes nodes')
    (hdecodes : ∀ n ∈ nodes, ∀ c ∈ Declaration.kindNodes n, c.Decodes source)
    (hdecodes' : ∀ n ∈ nodes', ∀ c ∈ Declaration.kindNodes n, c.Decodes source) :
    Outcome.Rel (List.Forall₂ (Like source)) (ofDeclarations source nodes)
      (ofDeclarations source nodes') := by
  induction h with
  | nil => exact .ok .nil
  | @cons n n' _ _ hn _ ih =>
    obtain ⟨hfirst, hrest⟩ := List.forall_mem_cons.mp hdecodes
    obtain ⟨hfirst', hrest'⟩ := List.forall_mem_cons.mp hdecodes'
    refine (rel_ofDeclaration hn hfirst hfirst').bind fun entry entry' _ _ hentry => ?_
    refine (ih hrest hrest').bind fun others others' _ _ hothers => .ok ?_
    cases hentry with
    | none => exact hothers
    | some hentry => exact .cons hentry hothers

end Entry

end Entries

/-! ### What is listed -/

/-- **The entries of a module** are the same. -/
theorem Module.Declares.rel_entries {m m' : Module} (h : m.Declares m') :
    Outcome.Rel (List.Forall₂ (Entry.Like m.source)) m.entries m'.entries := by
  rw [entries, entries]
  refine (Exports.rel_list h).bind fun nodes nodes' hnodes hnodes' hlike => ?_
  rw [← h.source]
  refine Entry.rel_ofDeclarations hlike (fun n hn => Exports.decodes_kindNodes hnodes hn) ?_
  intro n hn
  rw [h.source]
  exact Exports.decodes_kindNodes hnodes' hn

namespace ModuleEntry

private theorem mapM_title_eq {source : List UInt8} {owned owned' : List Member}
    (h : List.Forall₂ (Member.Like source) owned owned') :
    owned.mapM (Member.title source) = owned'.mapM (Member.title source) := by
  induction h with
  | nil => rfl
  | cons ho _ ih => rw [List.mapM_cons, List.mapM_cons, ho.title, ih]

variable {e e' : ModuleEntry}

theorem line_eq (hsource : e.module.source = e'.module.source) {entry entry' : Entry}
    (h : entry.Like e.module.source entry') : e.line entry = e'.line entry' := by
  refine Outcome.Rel.eq ?_
  rw [line, line, ← hsource]
  refine h.members.mapError.bind fun owned owned' _ _ howned => ?_
  rw [mapM_title_eq howned, h.title]
  exact .refl (fun _ => rfl) _

private theorem linesOf_eq (hsource : e.module.source = e'.module.source)
    (emit : Listing.Line → Outcome Failure Unit) {entries entries' : List Entry}
    (h : List.Forall₂ (Entry.Like e.module.source) entries entries') :
    e.linesOf emit entries = e'.linesOf emit entries' := by
  induction h with
  | nil => rfl
  | cons hentry _ ih => rw [linesOf, linesOf, line_eq hsource hentry, ih]

/-- The lines of a listing are the same, and so is what is emitted on the way. -/
private theorem lines_eq (h : e.module.Declares e'.module)
    (emit : Listing.Line → Outcome Failure Unit) :
    e.lines emit = e'.lines emit := by
  refine Outcome.Rel.eq ?_
  rw [lines, lines]
  refine h.rel_entries.mapError.bind fun entries entries' _ _ hentries => ?_
  rw [linesOf_eq h.source emit hentries]
  exact .refl (fun _ => rfl) _

end ModuleEntry

/-- **`declare` is transparent.** Where declarations at the top of a module, or ones that it exports
directly, are wrapped, the same declarations are exported, in the same order; they have the same
entries with the same names, titles and members; and every listing of the module has the same
lines. Where one of the modules cannot be told, the other fails in the same way. -/
theorem Module.listings_of_declares {m m' : Module} (h : m.Declares m') :
    Outcome.Rel (List.Forall₂ Node.Like) (Exports.list m) (Exports.list m') ∧
    Outcome.Rel (List.Forall₂ (Entry.Like m.source)) m.entries m'.entries ∧
    ∀ root outputs emit,
      (ModuleEntry.mk root m outputs).lines emit = (ModuleEntry.mk root m' outputs).lines emit :=
  ⟨Exports.rel_list h, h.rel_entries, fun _ _ emit => ModuleEntry.lines_eq h emit⟩

/-- `declare` before a declaration. -/
def Tree.declare (t : Tree) : Tree :=
  let start := t.label.start - 8
  .node { t.label with kind := "ambient_declaration", start }
    [.node ⟨"declare", start, start + 7, false, false, ""⟩ [], t.inField ""]

/-- A declaration may be wrapped in this way if it is no token. -/
private theorem Tree.wraps_declare {t : Tree} (hnamed : t.label.named = true)
    (hplain : t.kind ≠ "ambient_declaration") (hblock : t.kind ≠ "statement_block") :
    t.Wraps t.declare where
  kind := rfl
  named := hnamed
  field := rfl
  inner := by
    have hnamed' : (t.inField "").label.named = true := hnamed
    have hblock' : (t.inField "").kind ≠ "statement_block" := hblock
    have hchildren : t.declare.namedChildren = [t.inField ""] := by
      rw [declare, Tree.namedChildren, Tree.children,
        List.filter_cons_of_neg Bool.false_ne_true, List.filter_cons_of_pos (by exact hnamed')]
      rfl
    exact ⟨"", by simp [hchildren, hblock']⟩
  plain := hplain

/-- A class, two constants and two functions, with `wrap` around the statements that declare
them. -/
def Module.widgets (wrap : Tree → Tree) : Module where
  path := "/p/widgets.d.ts"
  source := String.toUTF8 ("declare class Widget \x7b size; \x7d\ndeclare const a, b;\n" ++
    "declare function main();\nexport declare function make(n);\n" ++
    "export \x7b Widget, b \x7d;\nexport default main;\n") |>.toList
  tree := .node ⟨"program", 0, 152, true, false, ""⟩
    [wrap (.node ⟨"class_declaration", 8, 30, true, false, ""⟩
      [.node ⟨"type_identifier", 14, 20, true, false, "name"⟩ [],
        .node ⟨"class_body", 21, 30, true, false, "body"⟩
          [.node ⟨"public_field_definition", 23, 27, true, false, ""⟩
            [.node ⟨"property_identifier", 23, 27, true, false, "name"⟩ []]]]),
      wrap (.node ⟨"lexical_declaration", 39, 50, true, false, ""⟩
        [.node ⟨"variable_declarator", 45, 46, true, false, ""⟩
          [.node ⟨"identifier", 45, 46, true, false, "name"⟩ []],
          .node ⟨"variable_declarator", 48, 49, true, false, ""⟩
            [.node ⟨"identifier", 48, 49, true, false, "name"⟩ []]]),
      wrap (.node ⟨"function_signature", 59, 75, true, false, ""⟩
        [.node ⟨"identifier", 68, 72, true, false, "name"⟩ [],
          .node ⟨"formal_parameters", 72, 74, true, false, "parameters"⟩ []]),
      .node ⟨"export_statement", 76, 108, true, false, ""⟩
        [wrap (.node ⟨"function_signature", 91, 108, true, false, "declaration"⟩
          [.node ⟨"identifier", 100, 104, true, false, "name"⟩ [],
            .node ⟨"formal_parameters", 104, 107, true, false, "parameters"⟩
              [.node ⟨"required_parameter", 105, 106, true, false, ""⟩
                [.node ⟨"identifier", 105, 106, true, false, "pattern"⟩ []]]])],
      .node ⟨"export_statement", 109, 130, true, false, ""⟩
        [.node ⟨"export_clause", 116, 129, true, false, ""⟩
          [.node ⟨"export_specifier", 118, 124, true, false, ""⟩
            [.node ⟨"identifier", 118, 124, true, false, "name"⟩ []],
            .node ⟨"export_specifier", 126, 127, true, false, ""⟩
              [.node ⟨"identifier", 126, 127, true, false, "name"⟩ []]]],
      .node ⟨"export_statement", 131, 151, true, false, ""⟩
        [.node ⟨"identifier", 146, 150, true, false, "value"⟩ []]]

/-- All four statements are wrapped, and the module is listed as if none were. -/
theorem Module.listings_of_declares_widgets :
    (widgets id).Declares (widgets Tree.declare) ∧
      ((ModuleEntry.mk "/p" (widgets Tree.declare) []).lines fun _ => .ok ()).result = .ok
        [⟨"function make(n)", []⟩, ⟨"class Widget", ["Widget#size", "Widget#size="]⟩,
          ⟨"const b", []⟩, ⟨"function main()", []⟩] := by
  have hdeclares : (widgets id).Declares (widgets Tree.declare) := by
    refine ⟨rfl, rfl, rfl, .cons (.wrapped ?_ (by decide)) (.cons (.wrapped ?_ (by decide))
      (.cons (.wrapped ?_ (by decide)) (.cons (.exported rfl (.cons (.inr ⟨rfl, ?_⟩) .nil))
        (.cons (.same _) (.cons (.same _) .nil)))))⟩ <;>
    exact Tree.wraps_declare rfl (by decide) (by decide)
  refine ⟨hdeclares, ?_⟩
  rw [← (Module.listings_of_declares hdeclares).2.2]
  decide +kernel

end ApiOutline
