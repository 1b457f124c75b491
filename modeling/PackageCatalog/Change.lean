import PackageCatalog.Scan

/-!
# Changes

A change is a scan that may also write files.  The files, the memo and the warnings are all kept
when it fails: what was written before a failure stays written.
-/

namespace PackageCatalog

/-- One step of writing a directory anew. -/
inductive FileStep where
  | remove (path : String)
  | makeDirs (path : String)
  | write (path content : String)
  deriving DecidableEq

def FileStep.path : FileStep → String
  | .remove path => path
  | .makeDirs path => path
  | .write path _ => path

def FileStep.perform : FileStep → FileM Unit
  | .remove path => FileM.remove path
  | .makeDirs path => FileM.makeDirs path
  | .write path content => FileM.writeText path content

/-- What a change works on. -/
structure Workspace (σ : Type) where
  files : FileTree
  memo : σ
  warnings : List Warning

abbrev Change (σ : Type) := ExceptT Error (StateM (Workspace σ))

namespace Change

variable {σ τ α : Type}

/-- A scan of the files as they are. -/
def scan (s : Scan σ α) : Change σ α := fun w =>
  let r := (s w.files).run.run ⟨w.memo, w.warnings⟩
  (r.1, { w with memo := r.2.memo, warnings := r.2.warnings })

def zoom (part : σ → τ) (putBack : σ → τ → σ) (change : Change τ α) : Change σ α := fun w =>
  let r := change.run.run ⟨w.files, part w.memo, w.warnings⟩
  (r.1, ⟨r.2.files, putBack w.memo r.2.memo, r.2.warnings⟩)

def warn (warning : Warning) : Change σ Unit :=
  modify fun w => { w with warnings := w.warnings ++ [warning] }

/-- The outcome of writing files. -/
def tryFiles (step : FileM α) : Change σ (Except FileProblem α) := fun w =>
  let r := step.run.run w.files
  (.ok r.1, { w with files := r.2 })

/-- A step whose failure is a failure of the change. -/
def perform (step : FileStep) : Change σ Unit := do
  match ← tryFiles step.perform with
  | .ok () => return
  | .error problem => throw (.file step.path problem)

/-- A step whose failure is only reported. -/
def performLoosely (step : FileStep) : Change σ Unit := do
  match ← tryFiles step.perform with
  | .ok () => return
  | .error problem => warn (.cannotWrite step.path problem)

end Change

end PackageCatalog
