import ApiOutline.Module.Exports
import ApiOutline.Proofs.Module.Reading

/-!
# What a module exports

The exported declarations of a module are described here without the index of names and without the
order in which a search meets failures. `resolution` says statement by statement which declarations
are exported, with repeats; the list of exports keeps of these the first one with each key
(`list_exports`). It can be given exactly when the texts in `consulted` can be read, which are the
names of the top-level declarations and the names by which export statements refer to them.

The tree is taken as it is. Nothing is assumed about where damage or unusual nodes stand, and two
nodes with one span and kind count as one declaration.
-/

namespace ApiOutline

namespace Exports

open Declaration

/-! ### Top-level declarations -/

/-- What a declaration statement wraps: itself, or what `declare` stands before. -/
def inner (n : Node) : List Node :=
  if n.kind = "ambient_declaration" then
    (n.namedChildren.filter fun c => c.kind != "statement_block").take 1
  else [n]

/-- The declarators in a statement. -/
def declarators (n : Node) : List Node :=
  n.namedChildren.filter fun c => c.kind == "variable_declarator"

/-- The declarations that a statement may introduce: for variables its declarators, else itself. -/
def candidates (n : Node) : List Node :=
  (inner n).flatMap fun d => if d.kind ∈ variableStatementKinds then declarators d else [d]

/-- The declarations that a statement introduces. Of the declarators of variables those count that
have an identifier for name. -/
def introduced (source : List UInt8) (n : Node) : List Node :=
  (inner n).flatMap fun d =>
    if d.kind ∈ variableStatementKinds then
      (declarators d).filter fun c => (nameOf source c).isSome
    else [d]

/-- What a top-level statement declares, exported or not. -/
def declaring (statement : Node) : List Node :=
  if statement.kind = "export_statement" then (statement.child? "declaration").toList
  else [statement]

/-- The top-level declarations of a module, in source order. -/
def declared (m : Module) : List Node :=
  (m.root.namedChildren.flatMap declaring).flatMap (introduced m.source)

/-! ### What a statement exports -/

/-- The top-level declarations that bear the name that a node holds. -/
def sharing (m : Module) (n : Node) : List Node :=
  (declared m).filter fun c => nameOf m.source c == some (n.textD m.source)

/-- The local names that the export clauses of a statement list. -/
def specified (statement : Node) : List Node :=
  statement.namedChildren.flatMap fun clause =>
    if clause.kind = "export_clause" then
      clause.namedChildren.flatMap fun specifier =>
        if specifier.kind = "export_specifier" then (specifier.child? "name").toList else []
    else []

/-- The declarations that an export statement exports: those of its declaration; none if it names
another module; for a value that is an identifier those that bear it, else the value if it is a
class or a function; and otherwise those that bear one of the names it lists. -/
def resolution (m : Module) (statement : Node) : List Node :=
  match statement.child? "declaration", statement.child? "source", statement.child? "value" with
  | some d, _, _ => introduced m.source d
  | none, some _, _ => []
  | none, none, some value =>
    if value.kind = "identifier" then sharing m value
    else if value.kind ∈ classKinds ∨ value.kind ∈ functionKinds then [value]
    else []
  | none, none, none => (specified statement).flatMap (sharing m)

/-- The export statements at the top of a module. -/
def exporting (m : Module) : List Node :=
  m.root.namedChildren.filter fun statement => statement.kind == "export_statement"

/-- The nodes whose text an export statement refers by. -/
def references (statement : Node) : List Node :=
  match statement.child? "declaration", statement.child? "source", statement.child? "value" with
  | none, none, some value => if value.kind = "identifier" then [value] else []
  | none, none, none => specified statement
  | _, _, _ => []

/-- The nodes whose text is read to tell the exports of a module: the names of its top-level
declarations, and what its export statements refer by. -/
def consulted (m : Module) : List Node :=
  nameNodes ((m.root.namedChildren.flatMap declaring).flatMap candidates) ++
    (exporting m).flatMap references

/-! ### Declarations one by one -/

section Steps

variable {source : List UInt8}

private theorem toList_unwrap (n : Node) : (unwrap n).toList = inner n := by
  rw [unwrap, inner]
  by_cases h : n.kind = "ambient_declaration"
  · rw [if_pos (by simpa using h), if_pos h, ← List.head?_filter]
    cases n.namedChildren.filter fun c => c.kind != "statement_block" <;> rfl
  · rw [if_neg (by simpa using h), if_neg h]
    rfl

private theorem toList_declarationOf (statement : Node) :
    (declarationOf statement).toList = declaring statement := by
  rw [declarationOf, declaring]
  by_cases h : statement.kind = "export_statement"
  · rw [if_pos (by simpa using h), if_pos h]
  · rw [if_neg (by simpa using h), if_neg h]
    rfl

private theorem reads_namedDeclarators (source : List UInt8) (nodes : List Node) :
    Reads source (nameNodes (nodes.filter fun c => c.kind == "variable_declarator"))
      (namedDeclarators source nodes)
      ((nodes.filter fun c => c.kind == "variable_declarator").filter fun c =>
        (nameOf source c).isSome) := by
  induction nodes with
  | nil => exact .ok source []
  | cons n rest ih =>
    rw [namedDeclarators, List.filter_cons]
    by_cases h : (n.kind == "variable_declarator") = true
    · rw [if_pos h, if_pos h, nameNodes_cons, List.filter_cons]
      exact (reads_name? source n).both ih fun name kept => if name.isSome then n :: kept else kept
    · rw [if_neg h, if_neg h]
      exact ih

/-- What is read to expand a declaration statement: the names of its declarators. -/
def expanding (n : Node) : List Node :=
  (inner n).flatMap fun d =>
    if d.kind ∈ variableStatementKinds then nameNodes (declarators d) else []

private theorem reads_expand (source : List UInt8) (n : Node) :
    Reads source (expanding n) (expand source n) (introduced source n) := by
  rw [expand, introduced, expanding, ← toList_unwrap]
  cases unwrap n with
  | none => exact .ok source []
  | some d =>
    simp only [Option.toList_some, List.flatMap_cons, List.flatMap_nil, List.append_nil,
      List.contains_iff_mem]
    split
    · exact reads_namedDeclarators source d.namedChildren
    · exact .ok source [d]

/-- The declarations that have a name, each with it. -/
def named (source : List UInt8) (nodes : List Node) : List (String × Node) :=
  nodes.filterMap fun n => (nameOf source n).map fun name => (name, n)

private theorem named_append (source : List UInt8) (nodes nodes' : List Node) :
    named source (nodes ++ nodes') = named source nodes ++ named source nodes' :=
  List.filterMap_append

private theorem reads_withNames (source : List UInt8) (nodes : List Node) :
    Reads source (nameNodes nodes) (withNames source nodes) (named source nodes) := by
  induction nodes with
  | nil => exact .ok source []
  | cons n rest ih =>
    rw [withNames, nameNodes_cons, named, List.filterMap_cons, ← named]
    refine Reads.of_eq ((reads_name? source n).both ih _) ?_
    cases nameOf source n <;> rfl

/-- To expand a statement and to name what it introduces takes the names of all candidates. -/
theorem mem_nameNodes_candidates (source : List UInt8) (n c : Node) :
    c ∈ nameNodes (candidates n) ↔ c ∈ expanding n ++ nameNodes (introduced source n) := by
  rw [candidates, expanding, introduced, ← toList_unwrap]
  cases unwrap n with
  | none => exact Iff.rfl
  | some d =>
    simp only [Option.toList_some, List.flatMap_cons, List.flatMap_nil, List.append_nil]
    split
    · simp only [List.mem_append, nameNodes, List.mem_filterMap, List.mem_filter]
      constructor
      · exact .inl
      · rintro (h | ⟨d', ⟨hd', -⟩, hc⟩)
        · exact h
        · exact ⟨d', hd', hc⟩
    · rfl

/-- **The index of names** holds the named declarations of all statements. -/
theorem reads_locals (source : List UInt8) (statements : List Node) :
    Reads source (nameNodes ((statements.flatMap declaring).flatMap candidates))
      (locals source statements)
      (named source ((statements.flatMap declaring).flatMap (introduced source))) := by
  induction statements with
  | nil => exact .ok source []
  | cons statement rest ih =>
    rw [locals, List.flatMap_cons, ← toList_declarationOf]
    cases declarationOf statement with
    | none => exact ih
    | some d =>
      have hstatement : Reads source (nameNodes (candidates d))
          (expand source d >>= withNames source) (named source (introduced source d)) :=
        ((reads_expand source d).bind (reads_withNames source _)).congr
          (mem_nameNodes_candidates source d)
      have hreads := hstatement.both ih (· ++ ·)
      simp only [Option.toList_some, List.singleton_append, List.flatMap_cons, nameNodes_append,
        named_append]
      rw [bind_assoc] at hreads
      exact hreads

end Steps

/-! ### Statements one by one -/

section Statements

variable (m : Module)

/-- The index of names of a module. -/
def index : List (String × Node) :=
  named m.source (declared m)

/-- Looking a name up in the index gives the declarations that bear it, in source order. -/
private theorem bearing_index (name : String) :
    bearing (index m) name = (declared m).filter fun c => nameOf m.source c == some name := by
  rw [bearing, index, named]
  induction declared m with
  | nil => rfl
  | cons n rest ih =>
    cases hname : nameOf m.source n with
    | none =>
      rw [List.filterMap_cons_none (by rw [hname]; rfl), ih,
        List.filter_cons_of_neg (by simp [hname])]
    | some other =>
      rw [List.filterMap_cons_some (by rw [hname]; rfl)]
      by_cases h : other = name
      · rw [List.filter_cons_of_pos (by simpa using h), List.map_cons, ih,
          List.filter_cons_of_pos (by simp [hname, h])]
      · rw [List.filter_cons_of_neg (by simpa using h), ih,
          List.filter_cons_of_neg (by simp [hname, h])]

private theorem bearing_textD (n : Node) : bearing (index m) (n.textD m.source) = sharing m n :=
  bearing_index m _

private theorem clauseNames_eq (statement : Node) :
    clauseNames statement = specified statement := by
  rw [clauseNames, specified]
  induction statement.namedChildren with
  | nil => rfl
  | cons clause rest ih =>
    rw [List.flatMap_cons, ← ih, List.filter_cons]
    by_cases hclause : clause.kind = "export_clause"
    · rw [if_pos (by simpa using hclause), if_pos hclause, List.flatMap_cons]
      congr 1
      induction clause.namedChildren with
      | nil => rfl
      | cons specifier others ih =>
        rw [List.flatMap_cons, ← ih, List.filter_cons]
        by_cases hspecifier : specifier.kind = "export_specifier"
        · rw [if_pos (by simpa using hspecifier), if_pos hspecifier, List.filterMap_cons]
          cases specifier.child? "name" <;> rfl
        · rw [if_neg (by simpa using hspecifier), if_neg hspecifier, List.nil_append]
    · rw [if_neg (by simpa using hclause), if_neg hclause, List.nil_append]

private theorem reads_lookupAll (nodes : List Node) :
    Reads m.source nodes (lookupAll m.source (index m) nodes) (nodes.flatMap (sharing m)) := by
  induction nodes with
  | nil => exact .ok m.source []
  | cons n rest ih =>
    rw [lookupAll, List.flatMap_cons, ← bearing_textD]
    exact (Reads.text m.source n).both ih fun name others => bearing (index m) name ++ others

/-- What is read to resolve an export statement. -/
def resolving (statement : Node) : List Node :=
  (statement.child? "declaration").toList.flatMap expanding ++ references statement

/-- **An export statement** exports its resolution. -/
theorem reads_resolve (statement : Node) :
    Reads m.source (resolving statement) (resolve m.source (index m) statement).result
      (resolution m statement) := by
  rw [resolve, resolution, resolving, references]
  cases statement.child? "declaration" with
  | some d =>
    rw [Option.toList_some, List.flatMap_cons, List.flatMap_nil, List.append_nil, List.append_nil]
    exact reads_expand m.source d
  | none =>
    cases statement.child? "source" with
    | some _ => exact .ok m.source []
    | none =>
      cases statement.child? "value" with
      | none =>
        dsimp only
        rw [clauseNames_eq]
        exact reads_lookupAll m (specified statement)
      | some value =>
        dsimp only
        rw [Outcome.result_ofExcept, exportedValue]
        by_cases hid : value.kind = "identifier"
        · rw [if_pos hid, if_pos hid, if_pos (by simpa using hid), ← bearing_textD]
          exact (Reads.text m.source value).map (bearing (index m))
        · rw [if_neg hid, if_neg hid, if_neg (by simpa using hid)]
          simp only [Bool.or_eq_true, List.contains_iff_mem]
          split
          · exact .ok m.source [value]
          · exact .ok m.source []

private theorem reads_resolveAll (statements : List Node) :
    Reads m.source
      ((statements.filter fun statement => statement.kind == "export_statement").flatMap resolving)
      (resolveAll m.source (index m) statements).result
      ((statements.filter fun statement => statement.kind == "export_statement").flatMap
        (resolution m)) := by
  induction statements with
  | nil => exact .ok m.source []
  | cons statement rest ih =>
    rw [resolveAll, List.filter_cons]
    by_cases h : (statement.kind == "export_statement") = true
    · rw [if_pos h, if_pos h]
      exact (reads_resolve m statement).andThen_both ih (· ++ ·)
    · rw [if_neg h, if_neg h]
      exact ih

end Statements

/-! ### Each key once -/

private theorem key_not_mem_of_mem_firstByKey {seen : List (Nat × Nat × String)} {nodes : List Node}
    {n : Node} (h : n ∈ firstByKey seen nodes) : n.key ∉ seen := by
  induction nodes generalizing seen with
  | nil => cases h
  | cons first rest ih =>
    rw [firstByKey] at h
    split at h
    · exact ih h
    · next hfirst =>
      rcases List.mem_cons.mp h with rfl | h
      · simpa using hfirst
      · exact fun hn => ih h (List.mem_cons_of_mem _ hn)

/-- Each key is listed once. -/
private theorem nodup_map_key_firstByKey (seen : List (Nat × Nat × String)) (nodes : List Node) :
    ((firstByKey seen nodes).map Node.key).Nodup := by
  induction nodes generalizing seen with
  | nil => exact List.nodup_nil
  | cons n rest ih =>
    rw [firstByKey]
    split
    · exact ih seen
    · rw [List.map_cons, List.nodup_cons]
      refine ⟨fun hmem => ?_, ih (n.key :: seen)⟩
      obtain ⟨c, hc, hkey⟩ := List.mem_map.mp hmem
      exact key_not_mem_of_mem_firstByKey hc (hkey ▸ List.mem_cons_self)

/-- The keys are listed where they occur first. -/
private theorem map_key_firstByKey (seen : List (Nat × Nat × String)) (nodes : List Node) :
    (firstByKey seen nodes).map Node.key =
      ((nodes.map Node.key).filter fun key => !seen.contains key).eraseDups := by
  induction nodes generalizing seen with
  | nil => rfl
  | cons n rest ih =>
    rw [firstByKey, List.map_cons]
    by_cases h : seen.contains n.key = true
    · rw [if_pos h, List.filter_cons_of_neg (by simpa using h), ih]
    · rw [if_neg h, List.filter_cons_of_pos (by simpa using h), List.eraseDups_cons, List.map_cons,
        ih, List.filter_filter]
      congr 2
      refine List.filter_congr fun key _ => ?_
      rw [List.contains_cons, Bool.not_or]

/-- Of the nodes with one key the first is listed. -/
theorem find?_of_mem_firstByKey {seen : List (Nat × Nat × String)} {nodes : List Node} {n : Node}
    (h : n ∈ firstByKey seen nodes) : nodes.find? (fun c => c.key == n.key) = some n := by
  induction nodes generalizing seen with
  | nil => cases h
  | cons first rest ih =>
    rw [firstByKey] at h
    split at h
    · next hfirst =>
      have hne : first.key ≠ n.key := fun heq =>
        key_not_mem_of_mem_firstByKey h (heq ▸ by simpa using hfirst)
      rw [List.find?_cons_of_neg (by simpa using hne), ih h]
    · rcases List.mem_cons.mp h with rfl | h
      · rw [List.find?_cons_of_pos (by simp)]
      · have hne : first.key ≠ n.key := fun heq =>
          key_not_mem_of_mem_firstByKey h (heq ▸ List.mem_cons_self)
        rw [List.find?_cons_of_neg (by simpa using hne), ih h]

/-! ### The list of exports -/

variable (m : Module)

/-- What the export statements of a module export, statement by statement, with repeats. -/
def resolutions : List Node :=
  (exporting m).flatMap (resolution m)

/-- Everything that is read has its place in `consulted`. -/
private theorem mem_consulted (n : Node) :
    n ∈ consulted m ↔
      n ∈ nameNodes ((m.root.namedChildren.flatMap declaring).flatMap candidates) ++
        (exporting m).flatMap resolving := by
  rw [consulted, List.mem_append, List.mem_append]
  constructor
  · rintro (h | h)
    · exact .inl h
    · obtain ⟨statement, hstatement, hn⟩ := List.mem_flatMap.mp h
      exact .inr (List.mem_flatMap.mpr ⟨statement, hstatement, List.mem_append_right _ hn⟩)
  · rintro (h | h)
    · exact .inl h
    · obtain ⟨statement, hstatement, hn⟩ := List.mem_flatMap.mp h
      obtain ⟨hmem, hkind⟩ := List.mem_filter.mp hstatement
      rcases List.mem_append.mp hn with hn | hn
      · -- an exported declaration is a top-level one, too
        refine .inl ?_
        obtain ⟨d, hd, hn⟩ := List.mem_flatMap.mp hn
        have hdeclaring : d ∈ declaring statement := by
          rw [declaring, if_pos (by simpa using hkind)]
          exact hd
        obtain ⟨c, hc, hname⟩ := List.mem_filterMap.mp
          ((mem_nameNodes_candidates m.source d n).mpr (List.mem_append_left _ hn))
        refine List.mem_filterMap.mpr ⟨c, List.mem_flatMap.mpr ⟨d, ?_, hc⟩, hname⟩
        exact List.mem_flatMap.mpr ⟨statement, hmem, hdeclaring⟩
      · exact .inr (List.mem_flatMap.mpr ⟨statement, hstatement, hn⟩)

/-- **The list of exports** reads the texts in `consulted`, and keeps what is resolved first. -/
theorem reads_list :
    Reads m.source (consulted m) (list m).result (firstByKey [] (resolutions m)) := by
  refine Reads.congr ?_ (mem_consulted m)
  refine Reads.andThen (x := .ofExcept _) (reads_locals m.source m.root.namedChildren) ?_
  rw [← List.append_nil ((exporting m).flatMap resolving)]
  exact (reads_resolveAll m m.root.namedChildren).andThen (Reads.ok m.source _)

/-- **The exports of a module** can be listed exactly when the names that are consulted can be read,
and then the list has every key once, has the keys to which some export statement resolves and no
others, and has them in the order in which the statements first resolve to them, each with the node
that was first. -/
theorem list_exports (m : Module) :
    ((∃ nodes, (list m).result = .ok nodes) ↔ ∀ n ∈ consulted m, n.Decodes m.source) ∧
    ∀ nodes, (list m).result = .ok nodes →
      (nodes.map Node.key).Nodup ∧
      (∀ key, key ∈ nodes.map Node.key ↔
        ∃ statement ∈ m.root.namedChildren, statement.kind = "export_statement" ∧
          ∃ n ∈ resolution m statement, n.key = key) ∧
      nodes.map Node.key = ((resolutions m).map Node.key).eraseDups ∧
      ∀ n ∈ nodes, (resolutions m).find? (fun c => c.key == n.key) = some n := by
  refine ⟨(reads_list m).exists_ok_iff, fun nodes hnodes => ?_⟩
  obtain rfl := (reads_list m).eq_of_ok hnodes
  have hkeys : (firstByKey [] (resolutions m)).map Node.key =
      ((resolutions m).map Node.key).eraseDups := by
    rw [map_key_firstByKey, List.filter_eq_self.mpr]
    exact fun key _ => rfl
  refine ⟨nodup_map_key_firstByKey [] _, fun key => ?_, hkeys,
    fun n hn => find?_of_mem_firstByKey hn⟩
  · rw [hkeys, List.mem_eraseDups, List.mem_map]
    constructor
    · rintro ⟨n, hn, rfl⟩
      obtain ⟨statement, hstatement, hn⟩ := List.mem_flatMap.mp hn
      obtain ⟨hmem, hkind⟩ := List.mem_filter.mp hstatement
      exact ⟨statement, hmem, by simpa using hkind, n, hn, rfl⟩
    · rintro ⟨statement, hmem, hkind, n, hn, rfl⟩
      refine ⟨n, List.mem_flatMap.mpr ⟨statement, ?_, hn⟩, rfl⟩
      exact List.mem_filter.mpr ⟨hmem, by simpa using hkind⟩

end Exports

end ApiOutline
