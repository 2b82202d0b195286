import ApiOutline.Entry
import ApiOutline.Proofs.Module.Exports

/-!
# The entries of a module and what they own

A module has one entry for each of its exported classes, functions, variables, interfaces and type
aliases, in the order of its exports. A class or an interface owns one entry for each method and
accessor in its body and for each property that can only be read, and two for every other property,
so `N + G + S + R + 2 * W` of them; nothing else owns anything (`entries_owned`).

The kind of a declaration is described here by the node, its keywords and the body it stands in
(`kindOf`), and what a member owns by its kind. Each part can be told exactly when the names that it
takes can be read: those of methods, as a constructor is told by its name, the name of the owner of
a member that is dropped, which goes into a note, and for a title the names that it shows.
-/

namespace ApiOutline

/-! ### Kinds -/

namespace Declaration

variable {source : List UInt8}

/-- The kind of a declaration by its node: a method counts by its accessor keyword, unless it is the
constructor of a class. -/
def kindOf (source : List UInt8) (n : Node) : Kind :=
  if n.kind ∈ classKinds then .classDecl
  else if n.kind ∈ functionKinds then .function
  else if n.kind = "variable_declarator" then .variable
  else if n.kind = "interface_declaration" then .interface
  else if n.kind = "type_alias_declaration" then .typeAlias
  else if n.kind ∈ methodKinds then
    if inInterface n = false ∧ nameOf source n = some "constructor" then .other
    else if n.tree.hasToken "get" then .getAccessor
    else if n.tree.hasToken "set" then .setAccessor
    else .method
  else if n.kind ∈ propertyKinds then .property
  else .other

/-- What is read to tell the kind of a declaration: the name of a method outside of interfaces. -/
def kindNodes (n : Node) : List Node :=
  if n.kind ∈ methodKinds ∧ inInterface n = false then (nameNode? n).toList else []

/-- The kinds that need no look at a name. -/
private theorem kindNodes_eq_nil {n : Node} (h : n.kind ∉ methodKinds) : kindNodes n = [] :=
  if_neg fun hmethod => h hmethod.1

private theorem reads_isConstructor (source : List UInt8) {n : Node} (h : n.kind ∈ methodKinds) :
    Reads source (kindNodes n) (isConstructor source n)
      (!inInterface n && nameOf source n == some "constructor") := by
  rw [isConstructor, kindNodes]
  cases inInterface n with
  | true =>
    rw [if_neg (by simp)]
    exact .ok source false
  | false =>
    rw [if_pos ⟨h, rfl⟩]
    exact (reads_name? source n).map fun name => name == some "constructor"

private theorem kind_of_method {n : Node} (h : n.kind ∈ methodKinds) :
    kind source n = (isConstructor source n).map fun c => if c then .other else accessorKind n := by
  have hkind := h
  simp only [methodKinds, List.mem_cons, List.not_mem_nil, or_false] at h
  rcases h with h | h | h <;>
    simp [kind, h, classKinds, functionKinds, methodKinds]

theorem kindOf_of_method {n : Node} (h : n.kind ∈ methodKinds) :
    kindOf source n = if inInterface n = false ∧ nameOf source n = some "constructor" then .other
      else accessorKind n := by
  simp only [methodKinds, List.mem_cons, List.not_mem_nil, or_false] at h
  rcases h with h | h | h <;>
    simp [kindOf, accessorKind, h, classKinds, functionKinds, methodKinds]

/-- A method is neither a class nor an interface, so that takes no name to tell. -/
theorem kindNodes_of_owner {n : Node}
    (h : kindOf source n = .classDecl ∨ kindOf source n = .interface) : kindNodes n = [] := by
  refine kindNodes_eq_nil fun hmethod => ?_
  rw [kindOf_of_method hmethod, accessorKind] at h
  split at h
  · simp at h
  · split at h
    · simp at h
    · split at h <;> simp at h

/-- **The kind of a declaration** is told by its node. -/
theorem reads_kind (source : List UInt8) (n : Node) :
    Reads source (kindNodes n) (kind source n) (kindOf source n) := by
  by_cases h : n.kind ∈ methodKinds
  · rw [kind_of_method h, kindOf_of_method h]
    have hreads := (reads_isConstructor source h).map fun c =>
      if c then Kind.other else accessorKind n
    simpa using hreads
  · rw [kindNodes_eq_nil h]
    have hkind : kind source n = .ok (kindOf source n) := by
      simp only [kind, kindOf, List.contains_iff_mem, beq_iff_eq, h, if_false,
        apply_ite (Except.ok (ε := Utf8.Fault))]
    rw [hkind]
    exact .ok source _

end Declaration

/-! ### Titles -/

section Titles

variable (source : List UInt8)

/-- The name under which a node is shown. -/
def Node.shownName (n : Node) : String :=
  (Declaration.nameOf source n).getD "<anonymous>"

/-- A name is never empty, so it is shown as it is. -/
private theorem Title.displayName_nameOf (n : Node) :
    Title.displayName (Declaration.nameOf source n) = n.shownName source := by
  rw [Node.shownName]
  cases hname : Declaration.nameOf source n with
  | none => rfl
  | some name =>
    have hne : name ≠ "" := by
      simpa using (Option.filter_eq_some_iff.mp hname).2
    rw [Title.displayName, if_neg hne]
    rfl

theorem Title.displayName_shownName (n : Node) :
    Title.displayName (some (n.shownName source)) = n.shownName source := by
  rw [← Title.displayName_nameOf]
  cases Declaration.nameOf source n with
  | none => rfl
  | some name =>
    simp only [Title.displayName]
    split <;> simp_all [Title.anonymous]

theorem Title.call_shownName (n : Node) (parameters : List String) :
    Title.call (some (n.shownName source)) parameters =
      n.shownName source ++ "(" ++ ", ".intercalate parameters ++ ")" := by
  rw [Title.call, Title.displayName_shownName]

theorem Title.setter_shownName (n : Node) :
    Title.setter (some (n.shownName source)) = n.shownName source ++ "=" := by
  rw [Title.setter, Title.displayName_shownName]

theorem reads_displayName (n : Node) :
    Reads source (Declaration.nameNode? n).toList (n.displayName source) (n.shownName source) := by
  rw [← Title.displayName_nameOf]
  exact (Declaration.reads_name? source n).map Title.displayName

namespace Declaration

/-- The node whose text is the name of a parameter. -/
def parameterNode (n : Node) : Node :=
  let pattern := parameterPattern n
  if pattern.kind = "rest_pattern" then pattern.namedChildren.head?.getD pattern else pattern

/-- The parameters of a function or method. -/
def parameterNodes (n : Node) : List Node :=
  (parameterList n).namedChildren.filter fun c => parameterKinds.contains c.kind

/-- The shape of a parameter. -/
def parameterOf (n : Node) : Parameter where
  name := (parameterNode n).textD source
  isRest := n.kind == "rest_parameter" || (parameterPattern n).kind == "rest_pattern"
  isOptional := n.kind == "optional_parameter"
  hasDefault := (n.child? "value").isSome

private theorem reads_describeParameter (n : Node) :
    Reads source [parameterNode n] (describeParameter source n) (parameterOf source n) := by
  have hreads := (Reads.text source (parameterNode n)).map fun name =>
    { name
      isRest := n.kind == "rest_parameter" || (parameterPattern n).kind == "rest_pattern"
      isOptional := n.kind == "optional_parameter"
      hasDefault := (n.child? "value").isSome : Parameter }
  simpa [describeParameter, parameterNode, parameterOf] using hreads

theorem reads_parameters (n : Node) :
    Reads source ((parameterNodes n).map parameterNode) (parameters source n)
      ((parameterNodes n).map (parameterOf source)) := by
  rw [List.map_eq_flatMap]
  exact Reads.mapM (parameterNodes n) fun c _ => reads_describeParameter source c

end Declaration

namespace Member

/-- How a member is used: a method is called, a getter read, a setter assigned. -/
def callOf (o : Member) : String :=
  match o.variant with
  | .method => o.node.shownName source ++ "(" ++ ", ".intercalate
      (((Declaration.parameterNodes o.node).map (Declaration.parameterOf source)).map
        Title.parameter) ++ ")"
  | .getter => o.node.shownName source
  | .setter => o.node.shownName source ++ "="

/-- What is read to tell how a member is used: its name, and for a method those of its
parameters. -/
def callNodes (o : Member) : List Node :=
  (Declaration.nameNode? o.node).toList ++
    if o.variant = .method then
      (Declaration.parameterNodes o.node).map Declaration.parameterNode
    else []

theorem reads_callText (o : Member) :
    Reads source o.callNodes (o.callText source) (o.callOf source) := by
  have hname := reads_displayName source o.node
  rw [callText, callNodes, callOf, Member.name]
  refine hname.bind ?_
  cases o.variant with
  | method =>
    -- only a call shows parameters
    dsimp only
    rw [if_pos rfl, ← Title.call_shownName]
    exact ((Declaration.reads_parameters source o.node).map (List.map Title.parameter)).bind_pure
      (Title.call (some (o.node.shownName source)))
  | getter => exact .ok source _
  | setter =>
    dsimp only
    rw [if_neg (by decide), ← Title.setter_shownName]
    exact .ok source _

/-- What is read for a title: the name of the owner, and what tells how the member is used. -/
def titleNodes (o : Member) : List Node :=
  (Declaration.nameNode? o.owner).toList ++ o.callNodes

theorem reads_title (o : Member) :
    Reads source o.titleNodes (o.title source)
      (o.owner.shownName source ++ Title.joiner (Declaration.isStatic o.node) ++
        o.callOf source) :=
  (reads_displayName source o.owner).both (reads_callText source o)
    fun owner call => Title.owned owner call (Declaration.isStatic o.node)

/-- **A title** is the name of the owner, the joiner and how the member is used. -/
theorem title_parts {o : Member} {title : String} (h : o.title source = .ok title) :
    o.owner.displayName source = .ok (o.owner.shownName source) ∧
    o.callText source = .ok (o.callOf source) ∧
    title = o.owner.shownName source ++ Title.joiner (Declaration.isStatic o.node) ++
      o.callOf source := by
  have hnodes := List.forall_mem_append.mp ((reads_title source o).decodes title h)
  exact ⟨(reads_displayName source o.owner).eq_ok hnodes.1,
    (reads_callText source o).eq_ok hnodes.2, (reads_title source o).eq_of_ok h⟩

/-- What stands in the body of an interface is no part of the interface itself. -/
private theorem joiner_of_parent {n : Node} {body : String} (hparent : n.parent = some body)
    (hbody : body ∈ Declaration.interfaceBodyKinds) :
    Title.joiner (Declaration.isStatic n) = "#" := by
  have hinside : Declaration.inInterface n = true := by
    rw [Declaration.inInterface, hparent]
    simpa using hbody
  rw [Declaration.isStatic, hinside]
  rfl

end Member

end Titles

/-! ### Owned entries -/

namespace Member

variable (source : List UInt8)

/-- What a class or an interface owns for a member. -/
def variantsOf (n : Node) : List Variant :=
  match Declaration.kindOf source n with
  | .method => [.method]
  | .getAccessor => [.getter]
  | .setAccessor => [.setter]
  | .property => if n.tree.hasToken "readonly" then [.getter] else [.getter, .setter]
  | _ => []

private theorem ofKind_kindOf (n : Node) :
    Variant.ofKind (Declaration.isReadonly n) (Declaration.kindOf source n) =
      variantsOf source n := by
  rw [variantsOf, Declaration.isReadonly]
  cases Declaration.kindOf source n <;> rfl

/-- What is read to tell what a member gives: its kind, and the name of its owner if it is
dropped. -/
def memberNodes (owner n : Node) : List Node :=
  Declaration.kindNodes n ++
    if variantsOf source n = [] then (Declaration.nameNode? owner).toList else []

private theorem reads_ofNode (owner n : Node) :
    Reads source (memberNodes source owner n) (ofNode source owner n).result
      ((variantsOf source n).map (⟨·, owner, n⟩)) := by
  refine Reads.andThen (x := .ofExcept _) (Declaration.reads_kind source n) ?_
  rw [ofKind_kindOf]
  cases hvariants : variantsOf source n with
  | nil =>
    -- the note about a member that is dropped names the owner
    rw [if_pos rfl, ← List.append_nil (Declaration.nameNode? owner).toList]
    exact Reads.andThen (x := .ofExcept _) (reads_displayName source owner) (Reads.ok source [])
  | cons first rest =>
    rw [if_neg (List.cons_ne_nil first rest)]
    exact .ok source _

private theorem reads_ofNodes (owner : Node) (nodes : List Node) :
    Reads source (nodes.flatMap (memberNodes source owner)) (ofNodes source owner nodes).result
      (nodes.flatMap fun n => (variantsOf source n).map (⟨·, owner, n⟩)) := by
  induction nodes with
  | nil => exact .ok source []
  | cons n rest ih => exact (reads_ofNode source owner n).andThen_both ih (· ++ ·)

/-- **The counting law**: a member gives one entry, or two if it is a property that can be
written. -/
theorem length_flatMap_variantsOf (owner : Node) (nodes : List Node) :
    (nodes.flatMap fun n => (variantsOf source n).map (Member.mk · owner n)).length =
      nodes.countP (fun n => Declaration.kindOf source n = .method) +
      nodes.countP (fun n => Declaration.kindOf source n = .getAccessor) +
      nodes.countP (fun n => Declaration.kindOf source n = .setAccessor) +
      nodes.countP (fun n => Declaration.kindOf source n = .property ∧ n.tree.hasToken "readonly") +
      2 * nodes.countP (fun n =>
        Declaration.kindOf source n = .property ∧ ¬n.tree.hasToken "readonly") := by
  induction nodes with
  | nil => rfl
  | cons n rest ih =>
    rw [List.flatMap_cons, List.length_append, ih, List.length_map, variantsOf]
    simp only [List.countP_cons]
    cases Declaration.kindOf source n with
    | property =>
      by_cases hreadonly : n.tree.hasToken "readonly" = true
      · simp [hreadonly]
        omega
      · simp [hreadonly]
        omega
    | _ => simp <;> omega

end Member

/-! ### Entries -/

namespace Entry

/-- The kind of declaration that an entry documents. -/
def Variant.declares : Variant → Declaration.Kind
  | .classEntry => .classDecl
  | .function => .function
  | .constant => .variable
  | .interface => .interface
  | .type => .typeAlias

/-- Each kind is documented by the variant that declares it, if there is one. -/
theorem Variant.ofKind?_eq_some_iff {kind : Declaration.Kind} {variant : Variant} :
    Variant.ofKind? kind = some variant ↔ variant.declares = kind := by
  cases kind <;> cases variant <;> decide

variable (source : List UInt8)

/-- The entry for a declaration, if its kind is documented. -/
def forNode? (n : Node) : Option Entry :=
  (Variant.ofKind? (Declaration.kindOf source n)).map (⟨·, n⟩)

theorem forNode?_eq_some_iff {n : Node} {e : Entry} :
    forNode? source n = some e ↔
      e.node = n ∧ Declaration.kindOf source n = e.variant.declares := by
  obtain ⟨variant, node⟩ := e
  rw [forNode?, Option.map_eq_some_iff]
  constructor
  · rintro ⟨_, hvariant, ⟨⟩⟩
    exact ⟨rfl, (Variant.ofKind?_eq_some_iff.mp hvariant).symm⟩
  · rintro ⟨rfl, hkind⟩
    exact ⟨variant, Variant.ofKind?_eq_some_iff.mpr hkind.symm, rfl⟩

private theorem reads_ofDeclaration (n : Node) :
    Reads source (Declaration.kindNodes n) (ofDeclaration source n).result
      (forNode? source n) := by
  rw [← List.append_nil (Declaration.kindNodes n)]
  refine Reads.andThen (x := .ofExcept _) (Declaration.reads_kind source n) ?_
  rw [forNode?]
  cases Variant.ofKind? (Declaration.kindOf source n) with
  | none => exact .ok source none
  | some variant => exact .ok source _

private theorem reads_ofDeclarations (nodes : List Node) :
    Reads source (nodes.flatMap Declaration.kindNodes) (ofDeclarations source nodes).result
      (nodes.filterMap (forNode? source)) := by
  induction nodes with
  | nil => exact .ok source []
  | cons n rest ih =>
    rw [List.filterMap_cons]
    refine Reads.of_eq ((reads_ofDeclaration source n).andThen_both ih _) ?_
    cases forNode? source n <;> rfl

/-- The kinds of declaration that have entries. -/
def documentedKinds : List Declaration.Kind :=
  [.classDecl, .function, .variable, .interface, .typeAlias]

/-- Exactly the declarations of a documented kind have entries. -/
private theorem map_node_filterMap_forNode? (nodes : List Node) :
    (nodes.filterMap (forNode? source)).map Entry.node =
      nodes.filter fun n => Declaration.kindOf source n ∈ documentedKinds := by
  rw [List.map_filterMap, ← List.filterMap_eq_filter]
  refine congrArg (List.filterMap · nodes) (funext fun n => ?_)
  rw [forNode?, Option.guard]
  cases Declaration.kindOf source n <;> rfl

/-- The members in the body of a declaration. -/
def bodyNodes (e : Entry) : List Node :=
  (Declaration.body? e.node).elim [] Node.namedChildren

/-- **What a class or an interface owns**: what each member of its body gives, in order. -/
theorem reads_members {e : Entry} (hkind : Declaration.kindOf source e.node = e.variant.declares)
    (howner : e.variant = .classEntry ∨ e.variant = .interface) :
    Reads source (e.bodyNodes.flatMap (Member.memberNodes source e.node)) (e.members source).result
      (e.bodyNodes.flatMap fun n => (Member.variantsOf source n).map (⟨·, e.node, n⟩)) := by
  have howns : Declaration.kindOf source e.node = .classDecl ∨
      Declaration.kindOf source e.node = .interface := by
    rw [hkind]
    rcases howner with h | h <;> simp [h, Variant.declares]
  have hbody : Reads source [] (Declaration.members source e.node) e.bodyNodes := by
    have hreads := (Declaration.reads_kind source e.node).map fun kind =>
      if kind = .classDecl ∨ kind = .interface then e.bodyNodes else []
    rwa [if_pos howns, Declaration.kindNodes_of_owner howns] at hreads
  have hreads := Reads.andThen (x := .ofExcept _) hbody
    (Member.reads_ofNodes source e.node e.bodyNodes)
  rw [members]
  rcases howner with h | h <;> rw [h] <;> exact hreads

/-- What it is for a class or an interface to own `owned`. -/
structure Owns (e : Entry) (owned : List Member) : Prop where
  /-- The kinds of its members can be told. -/
  kinds : ∀ n ∈ e.bodyNodes, Declaration.kind source n = .ok (Declaration.kindOf source n)
  /-- It owns what its members give, in order. -/
  members : owned = e.bodyNodes.flatMap fun n =>
    (Member.variantsOf source n).map (⟨·, e.node, n⟩)
  /-- A property that can be written counts twice. -/
  length : owned.length =
    e.bodyNodes.countP (fun n => Declaration.kindOf source n = .method) +
    e.bodyNodes.countP (fun n => Declaration.kindOf source n = .getAccessor) +
    e.bodyNodes.countP (fun n => Declaration.kindOf source n = .setAccessor) +
    e.bodyNodes.countP (fun n =>
      Declaration.kindOf source n = .property ∧ n.tree.hasToken "readonly") +
    2 * e.bodyNodes.countP (fun n =>
      Declaration.kindOf source n = .property ∧ ¬n.tree.hasToken "readonly")
  /-- What is owned owns nothing. -/
  owns_nothing : ∀ o ∈ owned, o.members = .ok []
  /-- A title can be told when its names can be read. -/
  exists_title : ∀ o ∈ owned,
    (∃ title, o.title source = .ok title) ↔ ∀ n ∈ o.titleNodes, n.Decodes source
  /-- A title puts together the name of the owner, a joiner and how the member is used. -/
  title : ∀ o ∈ owned, ∀ title, o.title source = .ok title →
    e.name source = .ok (e.node.shownName source) ∧
    o.callText source = .ok (o.callOf source) ∧
    title = e.node.shownName source ++ Title.joiner (Declaration.isStatic o.node) ++
      o.callOf source ∧
    ∀ body, o.node.parent = some body → body ∈ Declaration.interfaceBodyKinds →
      Title.joiner (Declaration.isStatic o.node) = "#"

/-- What a class or an interface lists is what it owns. -/
private theorem owns_of_members {e : Entry}
    (hkind : Declaration.kindOf source e.node = e.variant.declares)
    (howner : e.variant = .classEntry ∨ e.variant = .interface) {owned : List Member}
    (h : (e.members source).result = .ok owned) : e.Owns source owned := by
  have hreads := reads_members source hkind howner
  have howned := hreads.eq_of_ok h
  have hofOwner : ∀ o ∈ owned, o.owner = e.node := by
    intro o ho
    rw [howned] at ho
    obtain ⟨n, -, ho⟩ := List.mem_flatMap.mp ho
    obtain ⟨variant, -, rfl⟩ := List.mem_map.mp ho
    rfl
  refine ⟨fun n hn => ?_, howned, ?_, fun o _ => rfl,
    fun o _ => (Member.reads_title source o).exists_ok_iff, fun o ho title htitle => ?_⟩
  · refine (Declaration.reads_kind source n).eq_ok fun c hc => hreads.decodes owned h c ?_
    exact List.mem_flatMap.mpr ⟨n, hn, List.mem_append_left _ hc⟩
  · rw [howned]
    exact Member.length_flatMap_variantsOf source e.node e.bodyNodes
  · have hparts := Member.title_parts source htitle
    rw [hofOwner o ho] at hparts
    exact ⟨hparts.1, hparts.2.1, hparts.2.2, fun _ => Member.joiner_of_parent⟩

end Entry

namespace Module

/-- What is read to tell the entries of a module: what is read to tell its exports, and then their
kinds. -/
def entryNodes (m : Module) : List Node :=
  Exports.consulted m ++
    (Exports.firstByKey [] (Exports.resolutions m)).flatMap Declaration.kindNodes

theorem reads_entries (m : Module) :
    Reads m.source m.entryNodes m.entries.result
      ((Exports.firstByKey [] (Exports.resolutions m)).filterMap (Entry.forNode? m.source)) :=
  (Exports.reads_list m).andThen (Entry.reads_ofDeclarations m.source _)

/-- **The entries of a module** can be told exactly when what is read for them can be read, and then
there is one for each exported declaration of a documented kind, in the order of the exports and of
the variant for its kind. A class or an interface owns what its members give; nothing else owns
anything. -/
theorem entries_owned (m : Module) :
    ((∃ entries, m.entries.result = .ok entries) ↔ ∀ n ∈ m.entryNodes, n.Decodes m.source) ∧
    ∀ entries, m.entries.result = .ok entries →
      (∃ nodes, (Exports.list m).result = .ok nodes ∧
        (∀ n ∈ nodes, Declaration.kind m.source n = .ok (Declaration.kindOf m.source n)) ∧
        entries.map Entry.node = nodes.filter fun n =>
          Declaration.kindOf m.source n ∈ Entry.documentedKinds) ∧
      ∀ e ∈ entries,
        Declaration.kind m.source e.node = .ok e.variant.declares ∧
        (e.variant ≠ .classEntry ∧ e.variant ≠ .interface → e.members m.source = .ok []) ∧
        (e.variant = .classEntry ∨ e.variant = .interface →
          ((∃ owned, (e.members m.source).result = .ok owned) ↔
            ∀ n ∈ e.bodyNodes.flatMap (Member.memberNodes m.source e.node), n.Decodes m.source) ∧
          ∀ owned, (e.members m.source).result = .ok owned → e.Owns m.source owned) := by
  refine ⟨m.reads_entries.exists_ok_iff, fun entries hentries => ?_⟩
  have hdecodes := List.forall_mem_append.mp (m.reads_entries.decodes entries hentries)
  have hkinds : ∀ n ∈ Exports.firstByKey [] (Exports.resolutions m),
      Declaration.kind m.source n = .ok (Declaration.kindOf m.source n) := fun n hn =>
    (Declaration.reads_kind m.source n).eq_ok fun c hc =>
      hdecodes.2 c (List.mem_flatMap.mpr ⟨n, hn, hc⟩)
  obtain rfl := m.reads_entries.eq_of_ok hentries
  refine ⟨⟨_, (Exports.reads_list m).eq_ok hdecodes.1, hkinds,
    Entry.map_node_filterMap_forNode? m.source _⟩, fun e he => ?_⟩
  obtain ⟨n, hn, hentry⟩ := List.mem_filterMap.mp he
  obtain ⟨rfl, hkind⟩ := (Entry.forNode?_eq_some_iff m.source).mp hentry
  refine ⟨hkind ▸ hkinds e.node hn, fun ⟨hclass, hinterface⟩ => ?_, fun howner => ?_⟩
  · rw [Entry.members]
    cases hvariant : e.variant with
    | classEntry => exact absurd hvariant hclass
    | interface => exact absurd hvariant hinterface
    | _ => rfl
  · exact ⟨(Entry.reads_members m.source hkind howner).exists_ok_iff,
      fun owned howned => Entry.owns_of_members m.source hkind howner howned⟩

end Module

end ApiOutline
