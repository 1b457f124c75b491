import PackageCatalog.Repository.Basic
import PackageCatalog.Sync
import PackageCatalog.Text.Integer

/-!
# Catalogues

A catalogue holds files, repositories and a registry.  Repositories are known by number; the
registry lists those that are in use, each with its importance, and no two of them share a name.  A
repository that is not registered keeps working, except where it needs the registry.

The registry is in the order in which repositories were added; `Catalog.ranked` puts the more
important first and keeps that order among equals.
-/

namespace PackageCatalog

/-- A transport and what it was asked to do so far. -/
structure TransportLog where
  transport : Transport
  attempts : List SyncAttempt

/-- A registered repository, by its number. -/
structure Registered where
  importance : Int
  number : Nat
  deriving DecidableEq

structure Catalog where
  files : FileTree
  warnings : List Warning := []
  repositories : List Repository := []
  /-- Nothing once the registry has been given up. -/
  registry : Option (List Registered) := some []
  transports : List TransportLog := []
  eapis : Option EapiTable := none
  /-- The transport of the repositories made from now on. -/
  transport : Option Nat := none
  shuffle : Shuffle := .none

/-- A computation on a catalogue; what it did before a failure stays done. -/
abbrev CatalogM := ExceptT Error (StateM Catalog)

namespace Catalog

/-! ## The registry -/

def registered (c : Catalog) : List Registered := c.registry.getD []

def nameOf (c : Catalog) (number : Nat) : String :=
  match c.repositories[number]? with
  | some r => r.name
  | none => ""

/-- The registration of the repository with this name. -/
def find? (c : Catalog) (name : String) : Option Registered :=
  c.registered.find? fun r => c.nameOf r.number == name

/-- The number of the registered repository with this name. -/
def fetch (c : Catalog) (name : String) : Option Nat := (c.find? name).map (·.number)

def importance (c : Catalog) (name : String) : Option Int := (c.find? name).map (·.importance)

/-- Unknown names rank lowest. -/
def moreImportant (c : Catalog) (a b : String) : Bool :=
  (c.importance b).getD Text.leastInteger < (c.importance a).getD Text.leastInteger

/-- The registered repositories, the more important first. -/
def ranked (c : Catalog) : List Registered :=
  c.registered.mergeSort fun a b => b.importance ≤ a.importance

/-- Takes the repository with this name out of the registry. -/
def unregister (c : Catalog) (name : String) : Catalog :=
  { c with registry := c.registry.map (·.filter fun r => c.nameOf r.number != name) }

def invalidate (c : Catalog) (number : Nat) : Catalog :=
  { c with repositories := c.repositories.modify number Repository.invalidated }

def invalidateAll (c : Catalog) : Catalog :=
  c.ranked.foldl (fun c r => c.invalidate r.number) c

end Catalog

namespace CatalogM

variable {α : Type}

def needRegistry : CatalogM (List Registered) := do
  match (← get).registry with
  | some _ => return (← get).ranked
  | none => throw (.configuration .registryGone)

/-- Adds a repository to the catalogue, without registering it. -/
def addRepository (r : Repository) : CatalogM Nat := do
  let number := (← get).repositories.length
  modify fun c => { c with repositories := c.repositories ++ [r] }
  return number

/-- Registers a repository, unless one of its name is registered. -/
def register (importance : Int) (number : Nat) : CatalogM Unit := do
  let c ← get
  match c.registry with
  | none => throw (.configuration .registryGone)
  | some list =>
    if (c.fetch (c.nameOf number)).isSome then
      throw (.configuration (.nameTaken (c.nameOf number)))
    let added : Registered := ⟨importance, number⟩
    set { c with registry := some (list ++ [added]) }

/-! ## Working on one repository -/

def setRepository (number : Nat) (r : Repository) : CatalogM Unit :=
  modify fun c => { c with repositories := c.repositories.set number r }

/-- A scan that remembers nothing. -/
def scan (s : Scan Unit α) : CatalogM α := do
  let c ← get
  let (result, _, warnings) := s.run c.files ()
  set { c with warnings := c.warnings ++ warnings }
  result

/-- A change on the memo of a repository, which `keep` puts back. -/
def change {σ : Type} (number : Nat) (memo : σ) (keep : σ → Repository) (work : Change σ α) :
    CatalogM α := do
  let c ← get
  let r := work.run.run (⟨c.files, memo, c.warnings⟩ : Workspace σ)
  set { c with files := r.2.files, warnings := r.2.warnings }
  setRepository number (keep r.2.memo)
  r.1

/-- A scan of a source repository; nothing if the number is that of another kind. -/
def onEbuild? (number : Nat) (s : EbuildRepository → Scan EbuildMemo α) : CatalogM (Option α) := do
  match (← get).repositories[number]? with
  | some (.ebuild r memo) => return some (← change number memo (.ebuild r) (Change.scan (s r)))
  | _ => return none

/-- A scan of a database of installed packages; nothing if the number is that of another kind. -/
def onInstalled? (number : Nat) (s : InstalledRepository → Scan InstalledMemo α) :
    CatalogM (Option α) := do
  match (← get).repositories[number]? with
  | some (.installed r memo) =>
    return some (← change number memo (.installed r) (Change.scan (s r)))
  | _ => return none

/-- Writes the caches of a repository anew, if it has any. -/
def regenerate (number : Nat) : CatalogM Unit := do
  match (← get).repositories[number]? with
  | some (.ebuild r memo) => change number memo (.ebuild r) r.regenerate
  | some (.installed r memo) => change number memo (.installed r) r.regenerate
  | _ => return

end CatalogM

end PackageCatalog
