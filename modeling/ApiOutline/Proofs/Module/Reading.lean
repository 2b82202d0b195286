import ApiOutline.Module.Declaration
import ApiOutline.Proofs.Outcome

/-!
# Which texts a question about a module reads

The text of a node is a span of bytes, which may fail to be UTF-8, and then whatever reads it fails.
`Reads source nodes x a` says that a computation reads the texts of `nodes` and no others: it gives
`a` when all of them can be read, and fails otherwise. Computations that are run one after the other
read what each of them reads, so what a question about a module reads, and what it gives, is put
together from its parts.
-/

namespace ApiOutline

variable {ε ε' α β : Type}

/-! ### Texts -/

namespace Node

/-- The text of a node can be read. -/
def Decodes (source : List UInt8) (n : Node) : Prop :=
  ∃ text, n.text source = .ok text

/-- The text of a node, empty where it cannot be read. -/
def textD (source : List UInt8) (n : Node) : String :=
  (n.text source).toOption.getD ""

end Node

/-- A computation that gives `a` if the texts of `nodes` can be read, and nothing otherwise. -/
structure Reads (source : List UInt8) (nodes : List Node) (x : Except ε α) (a : α) : Prop where
  eq_ok : (∀ n ∈ nodes, n.Decodes source) → x = .ok a
  decodes : ∀ b, x = .ok b → ∀ n ∈ nodes, n.Decodes source

namespace Reads

variable {source : List UInt8} {nodes nodes' : List Node} {x : Except ε α} {a : α}

/-- It gives nothing but `a`. -/
theorem eq_of_ok (h : Reads source nodes x a) {b : α} (hb : x = .ok b) : b = a :=
  Except.ok.inj (hb.symm.trans (h.eq_ok (h.decodes b hb)))

theorem exists_ok_iff (h : Reads source nodes x a) :
    (∃ b, x = .ok b) ↔ ∀ n ∈ nodes, n.Decodes source := by
  constructor
  · rintro ⟨b, hb⟩
    exact h.decodes b hb
  · intro hnodes
    exact ⟨a, h.eq_ok hnodes⟩

theorem of_eq (h : Reads source nodes x a) {b : α} (hb : a = b) : Reads source nodes x b :=
  hb ▸ h

theorem ok (source : List UInt8) (a : α) : Reads source [] (.ok a : Except ε α) a :=
  ⟨fun _ => rfl, fun _ _ _ hn => absurd hn List.not_mem_nil⟩

theorem text (source : List UInt8) (n : Node) :
    Reads source [n] (n.text source) (n.textD source) := by
  constructor
  · intro h
    obtain ⟨text, htext⟩ := h n List.mem_cons_self
    rw [Node.textD, htext]
    rfl
  · intro text htext c hc
    rw [List.mem_singleton.mp hc]
    exact ⟨text, htext⟩

theorem map (h : Reads source nodes x a) (f : α → β) : Reads source nodes (x.map f) (f a) := by
  constructor
  · intro hnodes
    rw [h.eq_ok hnodes]
    rfl
  · intro b hb
    obtain ⟨a', ha', -⟩ := Except.map_eq_ok_iff.mp hb
    exact h.decodes a' ha'

/-- It is the same whichever way the failure is told. -/
theorem mapError (h : Reads source nodes x a) (f : ε → ε') :
    Reads source nodes (x.mapError f) a := by
  constructor
  · intro hnodes
    rw [h.eq_ok hnodes]
    rfl
  · intro b hb
    exact h.decodes b (Except.mapError_eq_ok_iff.mp hb)

/-- **One after the other**: both read what they read. -/
theorem bind {f : α → Except ε β} {b : β} (h : Reads source nodes x a)
    (hf : Reads source nodes' (f a) b) : Reads source (nodes ++ nodes') (x >>= f) b := by
  constructor
  · intro hnodes
    rw [List.forall_mem_append] at hnodes
    rw [h.eq_ok hnodes.1]
    exact hf.eq_ok hnodes.2
  · intro c hc
    obtain ⟨a', ha', hc⟩ := Except.bind_eq_ok_iff.mp hc
    rw [h.eq_of_ok ha'] at hc
    exact List.forall_mem_append.mpr ⟨h.decodes a' ha', hf.decodes c hc⟩

/-- What is made of a reading at the end. -/
theorem bind_pure (h : Reads source nodes x a) (g : α → β) :
    Reads source nodes (x >>= fun a => pure (g a)) (g a) := by
  rw [← List.append_nil nodes]
  exact h.bind (ok source (g a))

/-- Two readings and what is made of both. -/
theorem both {γ : Type} {y : Except ε β} {b : β} (h : Reads source nodes x a)
    (hy : Reads source nodes' y b) (g : α → β → γ) :
    Reads source (nodes ++ nodes') (x >>= fun a => y >>= fun b => pure (g a b)) (g a b) :=
  h.bind (hy.bind_pure (g a))

/-- A computation that leaves a trace reads what it reads for its result. -/
theorem andThen {x : Outcome ε α} {f : α → Outcome ε β} {b : β}
    (h : Reads source nodes x.result a) (hf : Reads source nodes' (f a).result b) :
    Reads source (nodes ++ nodes') (x >>= f).result b := by
  rw [Outcome.bind_eq, Outcome.result_andThen]
  exact h.bind hf

theorem andThen_both {γ : Type} {x : Outcome ε α} {y : Outcome ε β} {b : β}
    (h : Reads source nodes x.result a) (hy : Reads source nodes' y.result b) (g : α → β → γ) :
    Reads source (nodes ++ nodes') (x >>= fun a => y >>= fun b => pure (g a b)).result (g a b) := by
  refine h.andThen ?_
  rw [← List.append_nil nodes']
  exact hy.andThen (ok source (g a b))

/-- Neither the order in which texts are read counts, nor how often each is. -/
theorem congr (h : Reads source nodes x a) (hnodes : ∀ n, n ∈ nodes' ↔ n ∈ nodes) :
    Reads source nodes' x a :=
  ⟨fun hread => h.eq_ok fun n hn => hread n ((hnodes n).mpr hn),
    fun b hb n hn => h.decodes b hb n ((hnodes n).mp hn)⟩

/-- What is gathered along a list is read along it. -/
theorem mapM {γ : Type} {f : γ → Except ε α} {g : γ → α} {reads : γ → List Node}
    (items : List γ) (h : ∀ item ∈ items, Reads source (reads item) (f item) (g item)) :
    Reads source (items.flatMap reads) (items.mapM f) (items.map g) := by
  induction items with
  | nil => exact ok source []
  | cons item rest ih =>
    obtain ⟨hitem, hrest⟩ := List.forall_mem_cons.mp h
    rw [List.mapM_cons, List.flatMap_cons, List.map_cons]
    exact hitem.both (ih hrest) List.cons

end Reads

/-! ### Names -/

namespace Declaration

/-- The node whose text is the name of a declaration. A declarator that takes a value apart has
none. -/
def nameNode? (n : Node) : Option Node :=
  (n.child? "name").filter fun c => n.kind != "variable_declarator" || c.kind == "identifier"

/-- The nodes whose texts are the names of some declarations. -/
def nameNodes (nodes : List Node) : List Node :=
  nodes.filterMap nameNode?

theorem nameNodes_cons (n : Node) (nodes : List Node) :
    nameNodes (n :: nodes) = (nameNode? n).toList ++ nameNodes nodes := by
  rw [nameNodes, nameNodes, List.filterMap_cons]
  cases nameNode? n <;> rfl

theorem nameNodes_append (nodes nodes' : List Node) :
    nameNodes (nodes ++ nodes') = nameNodes nodes ++ nameNodes nodes' :=
  List.filterMap_append

/-- The name of a declaration; there is none where it is empty or cannot be read. -/
def nameOf (source : List UInt8) (n : Node) : Option String :=
  ((nameNode? n).map (Node.textD source)).filter (· ≠ "")

theorem reads_name? (source : List UInt8) (n : Node) :
    Reads source (nameNode? n).toList (name? source n) (nameOf source n) := by
  cases hchild : n.child? "name" with
  | none =>
    rw [name?, nameOf, nameNode?, hchild]
    exact .ok source none
  | some c =>
    by_cases hbinds : n.kind = "variable_declarator" → c.kind = "identifier"
    · have hname : nameNode? n = some c := by
        have hkeep := Decidable.not_or_of_imp hbinds
        rw [nameNode?, hchild, Option.filter_some, if_pos (by simpa using hkeep)]
      rw [name?, hchild, nameOf, hname]
      dsimp only
      rw [if_neg (by simpa using hbinds)]
      refine Reads.of_eq ((Reads.text source c).map _) ?_
      simp [Option.filter_some]
    · have hname : nameNode? n = none := by
        rw [nameNode?, hchild, Option.filter_some, if_neg (by simpa using hbinds)]
      rw [name?, hchild, nameOf, hname]
      dsimp only
      rw [if_pos (by simpa using hbinds)]
      exact .ok source none

end Declaration

end ApiOutline
