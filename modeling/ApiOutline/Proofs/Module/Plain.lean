import ApiOutline.Listing
import ApiOutline.Proofs.Outcome

/-!
# Listings are plain

Whatever is looked up in a module, and each line of its listing, is a plain computation: notes are
made of what is dropped, and nothing is printed. So what the listing of a module prints, it prints
where a line is handed on, and a statement about the lines is one about what they are handed to
(`linesOf_induction`).
-/

namespace ApiOutline

open Outcome (Plain)

/-! ### Declarations and members -/

private theorem Exports.plain_resolve (source : List UInt8) (index : List (String × Node))
    (statement : Node) : (resolve source index statement).Plain := by
  rw [resolve]
  split
  · exact .ofExcept _
  · split
    · exact .bind (.log (by decide) _) fun _ => .ok []
    · split
      · exact .ofExcept _
      · exact .ofExcept _

private theorem Exports.plain_resolveAll (source : List UInt8) (index : List (String × Node))
    (statements : List Node) : (resolveAll source index statements).Plain := by
  induction statements with
  | nil => exact .ok []
  | cons statement rest ih =>
    rw [resolveAll]
    split
    · exact .bind (plain_resolve source index statement) fun nodes => .bind ih fun others => .ok _
    · exact ih

private theorem Exports.plain_list (m : Module) : (list m).Plain :=
  .bind (.ofExcept _) fun index => .bind (plain_resolveAll m.source index _) fun _ => .ok _

private theorem Entry.plain_ofDeclaration (source : List UInt8) (n : Node) :
    (ofDeclaration source n).Plain := by
  refine .bind (.ofExcept _) fun kind => ?_
  split
  · exact .ok _
  · exact .bind (.log (by decide) _) fun _ => .ok none

private theorem Entry.plain_ofDeclarations (source : List UInt8) (nodes : List Node) :
    (ofDeclarations source nodes).Plain := by
  induction nodes with
  | nil => exact .ok []
  | cons n rest ih =>
    exact .bind (plain_ofDeclaration source n) fun entry => .bind ih fun others => .ok _

theorem Module.plain_entries (m : Module) : m.entries.Plain :=
  .bind (Exports.plain_list m) fun nodes => Entry.plain_ofDeclarations m.source nodes

private theorem Member.plain_ofNode (source : List UInt8) (owner n : Node) :
    (ofNode source owner n).Plain := by
  refine .bind (.ofExcept _) fun kind => ?_
  split
  · exact .bind (.ofExcept _) fun name => .bind (.log (by decide) _) fun _ => .ok []
  · exact .ok _

private theorem Member.plain_ofNodes (source : List UInt8) (owner : Node) (nodes : List Node) :
    (ofNodes source owner nodes).Plain := by
  induction nodes with
  | nil => exact .ok []
  | cons n rest ih =>
    exact .bind (plain_ofNode source owner n) fun owned => .bind ih fun others => .ok _

private theorem Entry.plain_members (source : List UInt8) (e : Entry) :
    (e.members source).Plain := by
  rw [Entry.members]
  split
  · exact .bind (.ofExcept _) fun nodes => Member.plain_ofNodes source e.node nodes
  · exact .bind (.ofExcept _) fun nodes => Member.plain_ofNodes source e.node nodes
  · exact .ok []

/-! ### Lines -/

namespace ModuleEntry

variable (e : ModuleEntry)

theorem plain_entries : e.entries.Plain :=
  .mapError e.module.plain_entries _

theorem plain_line (entry : Entry) : (e.line entry).Plain := by
  refine .bind (.mapError (Entry.plain_members e.module.source entry) _) fun owned => ?_
  exact .bind (.ofExcept _) fun members => .bind (.ofExcept _) fun title => .ok _

/-- **Lines one after another**: what holds of plain computations and of handing on a line, and is
kept by running one computation after another, holds of all lines. -/
theorem linesOf_induction {P : ∀ {α : Type}, Outcome Failure α → Prop}
    (plain : ∀ {α : Type} {x : Outcome Failure α}, x.Plain → P x)
    (bind : ∀ {α β : Type} {x : Outcome Failure α} {f : α → Outcome Failure β}, P x →
      (∀ a, P (f a)) → P (x >>= f))
    {emit : Listing.Line → Outcome Failure Unit} (h : ∀ line, P (emit line))
    (entries : List Entry) : P (e.linesOf emit entries) := by
  induction entries with
  | nil => exact plain (.ok [])
  | cons entry rest ih =>
    refine bind (plain (e.plain_line entry)) fun line => bind (h line) fun _ => ?_
    exact bind ih fun others => plain (.ok _)

theorem plain_describe (d : Disk) : (e.describe d).Plain := by
  refine .bind (.ofExcept _) fun name => .bind (.ofExcept _) fun title => ?_
  refine .bind (.ofExcept _) fun outputs => .bind (.bind e.plain_entries ?_) fun lines => .ok _
  exact e.linesOf_induction id .bind fun _ => .ok ()

end ModuleEntry

end ApiOutline
