/-!
# Limits

Work on what is nested goes down step by step, and the machine that does it has room for so many
steps only. How many depends on the machine and on what else it is doing, so the limits are no
constants: they come with the disk that the work is done on.
-/

namespace ApiOutline

/-- How much room there is for work on what is nested. -/
structure Limits where
  /-- How many configurations in a row may extend the one that is loaded. -/
  chain : Nat
  /-- How deep containers may be nested in a file that is read by itself. -/
  nesting : Nat
  /-- How deep they may be nested in a configuration which so many others in a row extend. -/
  nestingBelow : Nat → Nat
  /-- How deep they may be nested in what is written. -/
  writing : Nat
  /-- How many folders, one inside the other, a walk enters. -/
  walk : Nat
  /-- How many folders, one inside the other, a search goes through. -/
  search : Nat
  /-- How many segments a pattern may have. -/
  segments : Nat
  /-- How many missing folders, one inside the other, are made at once. -/
  newFolders : Nat
  /-- A configuration has less room where others extend it than it has by itself. -/
  nestingBelow_le : ∀ n, nestingBelow n ≤ nesting
  /-- There is room to write whatever the library makes by itself. -/
  five_le_writing : 5 ≤ writing

/-- The limits that are the same for everything, as far as they may be. -/
def Limits.uniform (n : Nat) : Limits where
  chain := n
  nesting := n
  nestingBelow _ := n
  writing := max n 5
  walk := n
  search := n
  segments := n
  newFolders := n
  nestingBelow_le _ := Nat.le_refl n
  five_le_writing := Nat.le_max_right n 5

end ApiOutline
