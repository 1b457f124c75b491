import PackageCatalog.Files.Tree
import PackageCatalog.Warning

/-!
# Scans

A scan reads a file tree, remembers what it found, and reports warnings on the way.  What it
remembers and reports is kept when it fails: a memo filled before a failure stays filled.
-/

namespace PackageCatalog

/-- The memo of a scan and the warnings so far. -/
structure Journal (σ : Type) where
  memo : σ
  warnings : List Warning

/-- A computation that reads a file tree and keeps a memo of type `σ`. -/
abbrev Scan (σ : Type) := ReaderT FileTree (ExceptT Error (StateM (Journal σ)))

namespace Scan

variable {σ τ α : Type}

def memo : Scan σ σ := return (← get).memo

def setMemo (memo : σ) : Scan σ Unit := modify fun j => { j with memo := memo }

def modifyMemo (f : σ → σ) : Scan σ Unit := modify fun j => { j with memo := f j.memo }

def warn (w : Warning) : Scan σ Unit :=
  modify fun j => { j with warnings := j.warnings ++ [w] }

/-- The result of the scan, the memo after it, and the warnings it reported. -/
def run (scan : Scan σ α) (t : FileTree) (memo : σ) : Except Error α × σ × List Warning :=
  let r := (ReaderT.run scan t).run.run ⟨memo, []⟩
  (r.1, r.2.memo, r.2.warnings)

/-- The outcome of a scan as a value. -/
def attempt (scan : Scan σ α) : Scan σ (Except Error α) :=
  fun t => (scan t).run

/-- A scan of a part of the memo. -/
def zoom (part : σ → τ) (putBack : σ → τ → σ) (scan : Scan τ α) : Scan σ α :=
  fun t => fun j =>
    let r := (scan t).run.run ⟨part j.memo, j.warnings⟩
    (r.1, ⟨putBack j.memo r.2.memo, r.2.warnings⟩)

def isDirectory (path : String) : Scan σ Bool := return (← read).isDirectory path

def isFile (path : String) : Scan σ Bool := return (← read).isFile path

/-- The content of a file; failing to read it is a failure of the scan. -/
def readText (path : String) : Scan σ String := do
  match (← read).readText path with
  | .ok content => return content
  | .error problem => throw (.file path problem)

/-- The content of a file, if there is one. -/
def readText? (path : String) : Scan σ (Option String) := do
  match (← read).readText path with
  | .ok content => return some content
  | .error .missing => return none
  | .error problem => throw (.file path problem)

/-- The names in a directory, none if there is no directory. -/
def list (path : String) : Scan σ (List String) := do
  match (← read).list path with
  | .ok names => return names
  | .error .missing => return []
  | .error problem => throw (.file path problem)

end Scan

end PackageCatalog
