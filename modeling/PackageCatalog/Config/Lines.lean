import PackageCatalog.Config.Assignment
import PackageCatalog.Config.Keys
import PackageCatalog.Scan

/-!
# Line files and assignment files

Two shapes of file configure a catalogue: lists of lines, where blank lines and `#` comments do not
count, and lists of assignments.  A file that does not exist is told apart from an empty one.
-/

namespace PackageCatalog.Config

/-- The trimmed lines that are neither blank nor comments. -/
def entryLines (content : String) : List String :=
  ((Text.lines content).map Text.trim).filter fun line =>
    !line.isEmpty && line.toList.head? != some '#'

variable {σ : Type}

def readLineFile (path : String) : Scan σ (Option (List String)) := do
  return (← Scan.readText? path).map entryLines

def readAssignmentFile (path : String) : Scan σ (Option (List (String × String))) := do
  match ← Scan.readText? path with
  | none => return none
  | some content =>
    match parseAssignments content with
    | .ok pairs => return some pairs
    | .error problem => throw (.configuration (.inside path problem))

/-- The keys of a repository, from an assignment file. -/
def readKeys (path : String) : Scan σ RepositoryKeys := do
  match ← readAssignmentFile path with
  | some pairs => return Table.ofList pairs
  | none => throw (.configuration (.noRepositoryFile path))

end PackageCatalog.Config
