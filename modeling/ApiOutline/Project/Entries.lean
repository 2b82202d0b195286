import ApiOutline.Listing
import ApiOutline.Project.Basic

/-!
# Module entries of a project

The entry of a module knows its source and the files compiled from it. The main module of a
package is the first source from which the package's entry point is compiled; an entry point
without extension may also be the file with `.js` added or the file `index.js` in a folder of that
name.
-/

namespace ApiOutline

namespace Project

variable (p : Project) (d : Disk)

/-- The entry of the module at a path. -/
def entryAt (path : String) : Query (Option ModuleEntry) := do
  match ← p.module d path with
  | none => return none
  | some m => return some ⟨p.root, m, ← p.outputs d m.path⟩

/-- The entry of the module at a path; a note is made when there is none. -/
def moduleEntry (path : String) : Query (Option ModuleEntry) := do
  match ← p.entryAt d path with
  | some entry => return some entry
  | none =>
    .lift (.log .info .extraction ("No module found at " ++ path))
    return none

/-- The entries of all sources, in order. -/
def moduleEntries : Query (List ModuleEntry) := do
  let entries ← forAll (p.entryAt d) (← p.sources d)
  return entries.filterMap id

/-- The compiled files that can be the entry point `main`. -/
def mainCandidates (main : String) : List String :=
  if Path.extension main = "" then [main, main ++ ".js", Path.join main "index.js"] else [main]

/-- The first source from which one of the candidates is compiled. -/
def firstEmitting (candidates : List String) : List String → Query (Option String)
  | [] => .ok none
  | path :: rest => do
    let emitted ← p.outputs d path
    if emitted.any candidates.contains then return some path
    else firstEmitting candidates rest

/-- The entry of the main module. -/
def mainModuleEntry : Query (Option ModuleEntry) := do
  match ← p.mainFile d with
  | none => return none
  | some main =>
    match ← p.firstEmitting d (mainCandidates main) (← p.sources d) with
    | some path =>
      .lift (.log .info .extraction ("Main module for " ++ main ++ " is " ++ path))
      p.entryAt d path
    | none =>
      .lift (.log .info .extraction ("No source module emits main file " ++ main))
      return none

end Project

end ApiOutline
