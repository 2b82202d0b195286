import ApiOutline.Proofs.Module.Counting
import ApiOutline.Proofs.Project.Entries
import Mathlib.Logic.Relation

/-!
# Counting damage

The nodes that mark damage in a tree are counted with a stack of trees that are still to be visited.
Below a tree without damage nothing is visited. `Search.Round` is one round of the search: it leaves
open in which order the children of a node are put on the stack. Every search comes to an end, and
whatever the order it has then counted every node of the whole tree that marks damage once
(`faultCount_counts`), since what is counted and what is still to be found below the stack add up to
the same number after each round.

So there is something to count exactly when the tree is damaged, and that is when a warning with the
count is logged and when the module is a parse error in the counts of a listing.
-/

namespace ApiOutline

namespace Tree

/-! ### Nodes that mark damage -/

/-- How many nodes mark damage in some trees, at any depth, named or not. -/
def faultsIn (ts : List Tree) : Nat :=
  (preorderAll none ts).countP fun n => n.1.isFault

private theorem preorderAll_append (parent : Option String) (ts us : List Tree) :
    preorderAll parent (ts ++ us) = preorderAll parent ts ++ preorderAll parent us := by
  induction ts with
  | nil => rfl
  | cons t ts ih => rw [List.cons_append, preorderAll, preorderAll, ih, List.append_assoc]

/-- The nodes of a tree are the same whatever it stands in. -/
private theorem map_fst_preorderAll (parent parent' : Option String) (ts : List Tree) :
    (preorderAll parent ts).map Prod.fst = (preorderAll parent' ts).map Prod.fst := by
  induction ts with
  | nil => rfl
  | cons t ts ih =>
    obtain ⟨l, cs⟩ := t
    simp only [preorderAll, preorder, List.map_append, List.map_cons, ih]

private theorem faultsIn_append (ts us : List Tree) :
    faultsIn (ts ++ us) = faultsIn ts + faultsIn us := by
  rw [faultsIn, preorderAll_append, List.countP_append, faultsIn, faultsIn]

private theorem faultsIn_singleton (t : Tree) :
    faultsIn [t] = (t.preorder none).countP fun n => n.1.isFault := by
  rw [faultsIn, preorderAll, preorderAll, List.append_nil]

/-- The nodes of a tree are the node at its top and those of its children. -/
private theorem faultsIn_cons (t : Tree) (ts : List Tree) :
    faultsIn (t :: ts) = (if t.isFault then 1 else 0) + faultsIn t.children + faultsIn ts := by
  have hbelow (parent : Option String) (us : List Tree) :
      ((preorderAll parent us).countP fun n => n.1.isFault) = faultsIn us := by
    have hcount (ns : List (Tree × Option String)) :
        ns.countP (fun n => n.1.isFault) = (ns.map Prod.fst).countP isFault := by
      rw [List.countP_map]
      rfl
    rw [faultsIn, hcount, hcount, map_fst_preorderAll]
  obtain ⟨l, cs⟩ := t
  rw [faultsIn, preorderAll, preorder, List.countP_append, List.countP_cons, hbelow, children,
    ← faultsIn, Nat.add_comm (faultsIn cs)]

/-- A tree is damaged when there is a node to count. -/
private theorem faultsIn_pos_iff {ts : List Tree} : 0 < faultsIn ts ↔ anyError ts = true := by
  rw [faultsIn, List.countP_pos_iff, anyError_iff none]

private theorem hasError_eq_anyError (t : Tree) : t.hasError = anyError [t] := by
  rw [anyError, anyError, Bool.or_false]

/-- What is not visited holds nothing to count. -/
private theorem faultsIn_visited (t : Tree) :
    faultsIn (if t.hasError then t.children else []) = faultsIn t.children := by
  split
  · rfl
  · next hsound =>
    have hnone : faultsIn [t] = 0 := by
      rwa [← Nat.le_zero, ← Nat.not_lt, faultsIn_pos_iff, ← hasError_eq_anyError]
    rw [faultsIn_cons] at hnone
    have hnil : faultsIn [] = 0 := rfl
    omega

private theorem faultsIn_perm {ts us : List Tree} (h : ts.Perm us) : faultsIn ts = faultsIn us := by
  induction h with
  | nil => rfl
  | cons t _ ih => rw [faultsIn_cons, faultsIn_cons, ih]
  | swap t u ts =>
    rw [faultsIn_cons, faultsIn_cons, faultsIn_cons, faultsIn_cons]
    omega
  | trans _ _ ih ih' => rw [ih, ih']

private theorem sizes_perm {ts us : List Tree} (h : ts.Perm us) : sizes ts = sizes us := by
  induction h with
  | nil => rfl
  | cons t _ ih => rw [sizes, sizes, ih]
  | swap t u ts =>
    simp only [sizes]
    omega
  | trans _ _ ih ih' => rw [ih, ih']

/-! ### Searching with a stack -/

/-- The trees that are still to be visited, and what was counted so far. -/
structure Search where
  stack : List Tree
  count : Nat

namespace Search

/-- A round takes the tree on top of the stack, counts it if it marks damage, and puts its children
in its place, in some order, if it is damaged at all. -/
inductive Round : Search → Search → Prop
  | visit {t : Tree} {pushed : List Tree} (rest : List Tree) (count : Nat)
      (h : pushed.Perm (if t.hasError then t.children else [])) :
      Round ⟨t :: rest, count⟩ ⟨pushed ++ rest, count + if t.isFault then 1 else 0⟩

/-- Rounds one after the other. -/
abbrev Run : Search → Search → Prop :=
  Relation.ReflTransGen Round

variable {s s' : Search}

/-- **One round** leaves the sum of what is counted and what is still to be counted as it is. -/
theorem Round.count_add (h : Round s s') :
    s'.count + faultsIn s'.stack = s.count + faultsIn s.stack := by
  obtain ⟨rest, count, hpushed⟩ := h
  dsimp only
  rw [faultsIn_append, faultsIn_perm hpushed, faultsIn_visited, faultsIn_cons]
  omega

/-- There is less to visit after each round. -/
private theorem Round.sizes_lt (h : Round s s') : sizes s'.stack < sizes s.stack := by
  obtain ⟨rest, count, hpushed⟩ := h
  rename_i t pushed
  have hvisited : sizes (if t.hasError then t.children else []) < t.size := by
    obtain ⟨l, cs⟩ := t
    rw [size]
    split
    · exact Nat.lt_succ_self _
    · exact Nat.succ_pos _
  rw [sizes_append, sizes_perm hpushed, sizes]
  omega

/-- **No search goes on for ever.** -/
theorem wellFounded_round : WellFounded fun s' s => Round s s' :=
  Subrelation.wf (fun h => h.sizes_lt)
    (InvImage.wf (fun s : Search => sizes s.stack) Nat.lt_wfRel.wf)

/-- **A run** keeps the sum. -/
theorem Run.count_add (h : Run s s') :
    s'.count + faultsIn s'.stack = s.count + faultsIn s.stack := by
  induction h with
  | refl => rfl
  | tail _ hround ih => rw [hround.count_add, ih]

/-- A search that cannot go on has visited everything. -/
private theorem exists_round_or_stack_eq_nil (s : Search) : (∃ s', Round s s') ∨ s.stack = [] := by
  obtain ⟨stack, count⟩ := s
  cases stack with
  | nil => exact .inr rfl
  | cons t rest => exact .inl ⟨_, .visit rest count (.refl _)⟩

/-- A search that can go on no more has counted everything. -/
private theorem Run.eq_of_stuck (h : Run s s') (hstuck : ∀ next, ¬Round s' next) :
    s' = ⟨[], s.count + faultsIn s.stack⟩ := by
  obtain ⟨next, hround⟩ | hnil := exists_round_or_stack_eq_nil s'
  · exact absurd hround (hstuck next)
  · obtain ⟨stack, count⟩ := s'
    obtain rfl : stack = [] := hnil
    rw [← h.count_add]
    rfl

end Search

/-- Counting takes the children of a node in their order. -/
private theorem run_countFaults (ts : List Tree) (count : Nat) :
    Search.Run ⟨ts, count⟩ ⟨[], count + countFaults ts⟩ := by
  induction ts using countFaults.induct generalizing count with
  | case1 =>
    rw [countFaults]
    exact .refl
  | case2 l cs rest t ih =>
    rw [countFaults, ← Nat.add_assoc]
    exact .head (.visit rest count (.refl _)) (ih _)

/-- The count is what there is to count. -/
private theorem countFaults_eq (ts : List Tree) : countFaults ts = faultsIn ts := by
  have hsum := (run_countFaults ts 0).count_add
  rwa [Nat.zero_add, Nat.zero_add] at hsum

private theorem faultCount_eq (t : Tree) : t.faultCount = faultsIn [t] :=
  countFaults_eq [t]

private theorem faultCount_pos_iff {t : Tree} : 0 < t.faultCount ↔ t.hasError = true := by
  rw [faultCount_eq, faultsIn_pos_iff, hasError_eq_anyError]

end Tree

/-! ### Warnings -/

/-- The text of an event that is a warning about the source of a module. -/
def Event.sourceWarning? : Event → Option String
  | .note ⟨.warning, .parsing, text⟩ => some text
  | _ => none

/-- The warnings about the sources of modules that a computation logs. -/
def Outcome.sourceWarnings {ε α : Type} (x : Outcome ε α) : List String :=
  x.trace.filterMap Event.sourceWarning?

/-- The warnings of a computation come before those of what follows it. -/
private theorem Outcome.sourceWarnings_andThen_of_ok {ε α β : Type} {x : Outcome ε α}
    {f : α → Outcome ε β} {a : α} (h : x.result = .ok a) :
    (x.andThen f).sourceWarnings = x.sourceWarnings ++ (f a).sourceWarnings := by
  rw [Outcome.andThen_of_ok h]
  exact List.filterMap_append

namespace Module

/-- What is said about a tree with damage. -/
def damageText (path : String) (t : Tree) : String :=
  "File " ++ path ++ " contains " ++ Text.decimal t.faultCount ++ " syntax errors"

/-- There is one warning about a tree with damage, and none about another. -/
private theorem sourceWarnings_ofTree {ε : Type} (path : String) (source : List UInt8) (t : Tree)
    (tsx : Bool) : (ofTree path source t tsx : Outcome ε Module).sourceWarnings =
      if 0 < t.faultCount then [damageText path t] else [] := by
  rw [ofTree, if_congr Tree.faultCount_pos_iff rfl rfl]
  cases t.hasError <;> rfl

/-- That is also so for a module that is loaded from a file. -/
private theorem sourceWarnings_loadModule {d : Disk} {path : String} {file : File}
    (h : d.read path = .ok file) : (Project.loadModule d path).sourceWarnings =
      if 0 < (file.tree.getD default).faultCount then
        [damageText path (file.tree.getD default)] else [] := by
  rw [Project.loadModule, h]
  dsimp only
  rw [Outcome.bind_eq, Outcome.sourceWarnings_andThen_of_ok (Project.result_ofTree ..),
    sourceWarnings_ofTree]
  exact List.append_nil _

end Module

/-! ### Parse errors -/

namespace ModuleEntry

/-- Whatever is listed of a module, and in whatever form, a damaged tree is one parse error more. -/
private theorem parseErrors_of_listInto {d : Disk} {e : ModuleEntry} {form : Listing.Form}
    {s s' : Stats}
    (h : (e.listInto d s form).result = .ok s') :
    s'.parseErrors = s.parseErrors + if 0 < e.module.tree.faultCount then 1 else 0 := by
  have hcount (lines : List Listing.Line) : (s.add (e.count lines)).parseErrors =
      s.parseErrors + if 0 < e.module.tree.faultCount then 1 else 0 := by
    rw [if_congr Tree.faultCount_pos_iff rfl rfl]
    rfl
  cases form with
  | text label =>
    rw [listInto, printTextInto_eq] at h
    obtain ⟨stats, htext, heq⟩ := Outcome.result_andThen_eq_ok_iff.mp h
    obtain rfl := Except.ok.inj heq
    obtain ⟨⟨⟩, -, htext⟩ := Outcome.result_andThen_eq_ok_iff.mp htext
    obtain ⟨lines, -, hstats⟩ := Outcome.result_andThen_eq_ok_iff.mp htext
    obtain rfl := Except.ok.inj hstats
    exact hcount lines
  | json =>
    rw [listInto, result_printJsonInto] at h
    obtain ⟨⟨listing, s'⟩, hdescribe, rfl⟩ := Except.map_eq_ok_iff.mp h
    rw [(lines_of_describeInto hdescribe).2]
    exact hcount _
  | description =>
    rw [result_listInto_description] at h
    obtain ⟨⟨listing, s'⟩, hdescribe, rfl⟩ := Except.map_eq_ok_iff.mp h
    rw [(lines_of_describeInto hdescribe).2]
    exact hcount _

end ModuleEntry

/-- **Counting damage.** Every search through a tree comes to an end, in whatever order it takes the
children of a node, and has then counted the nodes of the whole tree that mark damage. There are
some exactly when the tree is damaged, and then so is a module with this tree: there is one warning,
which tells the count, and one parse error more in every listing. -/
theorem Tree.faultCount_counts (t : Tree) :
    (WellFounded fun s' s => Search.Round s s') ∧
    (∀ s, Search.Run ⟨[t], 0⟩ s → (∀ next, ¬Search.Round s next) →
      s = ⟨[], (t.preorder none).countP fun n => n.1.isFault⟩) ∧
    Search.Run ⟨[t], 0⟩ ⟨[], t.faultCount⟩ ∧
    t.faultCount = (t.preorder none).countP (fun n => n.1.isFault) ∧
    (0 < t.faultCount ↔ t.hasError = true) ∧
    ∀ path source, let m : Module := ⟨path, source, t⟩
      (0 < t.faultCount ↔ m.hasErrors = true) ∧
      (∀ tsx, let taken : Outcome Failure Module := Module.ofTree path source t tsx
        taken.result = .ok m ∧
        taken.sourceWarnings = if 0 < t.faultCount then [Module.damageText path t] else []) ∧
      (∀ d file, Disk.read d path = .ok file → file.tree = some t →
        (Project.loadModule d path).sourceWarnings =
          if 0 < t.faultCount then [Module.damageText path t] else []) ∧
      ∀ root outputs d form s s',
        ((ModuleEntry.mk root m outputs).listInto d s form).result = .ok s' →
          s'.parseErrors = s.parseErrors + if 0 < t.faultCount then 1 else 0 := by
  have hcount : t.faultCount = (t.preorder none).countP (fun n => n.1.isFault) := by
    rw [faultCount_eq, faultsIn_singleton]
  refine ⟨Search.wellFounded_round, fun s hrun hstuck => ?_, ?_, hcount, faultCount_pos_iff,
    fun path source => ⟨faultCount_pos_iff, fun tsx => ?_, fun d file hread htree => ?_,
      fun root outputs d form s s' h => ModuleEntry.parseErrors_of_listInto h⟩⟩
  · rw [hrun.eq_of_stuck hstuck, faultsIn_singleton, Nat.zero_add]
  · rw [← Nat.zero_add t.faultCount]
    exact run_countFaults [t] 0
  · exact ⟨Project.result_ofTree path source t tsx,
      Module.sourceWarnings_ofTree path source t tsx⟩
  · simpa [htree] using Module.sourceWarnings_loadModule hread

end ApiOutline
