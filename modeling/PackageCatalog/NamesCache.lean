import PackageCatalog.Ascending
import PackageCatalog.Change
import PackageCatalog.Config.Keys
import PackageCatalog.Name.Basic

/-!
# The names cache

A names cache is a directory that tells which categories contain a package, so that a repository
need not be scanned for it:

    _VERSION_      the format tag, then the name of the repository
    <package>      the categories that contain the package, one on a line

The version file guards the others.  It is checked before the first look at a package; a cache that
fails the check is reported and not used again until it is invalidated.  `NamesCache.steps` writes
the directory anew: everything is removed before anything is written, and the version file is
written last.
-/

namespace PackageCatalog

def namesCacheFormat : String := "names-2"

def versionFileName : String := "_VERSION_"

structure NamesCache where
  location : String
  repository : String
  deriving DecidableEq

/-- What lookups in a names cache remember. -/
structure NamesMemo where
  usable : Bool
  checked : Bool := false
  entries : Table PackageName (List Category) := ∅

namespace NamesCache

/-- The cache of a repository below `base`; a disabled base disables the cache. -/
def ofBase (base repository : String) : NamesCache :=
  ⟨if isDisabled base then base else Path.join base repository, repository⟩

def freshMemo (c : NamesCache) : NamesMemo := { usable := !isDisabled c.location }

def versionFile (c : NamesCache) : String := Path.join c.location versionFileName

def fragmentFile (c : NamesCache) (package : String) : String := Path.join c.location package

/-! ## Lookup -/

def line (lines : List String) (k : Nat) : String := (lines[k]?).getD ""

/-- The first line of a version file is the format, the second the repository. -/
def checkVersion (c : NamesCache) (content : String) : Except NamesCacheProblem Unit :=
  let lines := Text.lines content
  if line lines 0 != namesCacheFormat then .error (.otherFormat (line lines 0))
  else if line lines 1 != c.repository then .error (.otherRepository (line lines 1))
  else .ok ()

def check (c : NamesCache) (t : FileTree) : Except NamesCacheProblem Unit :=
  if t.isDirectory c.location && t.isPresent c.versionFile then
    match t.readText c.versionFile with
    | .ok content => c.checkVersion content
    | .error problem => .error (.unreadable c.versionFile problem)
  else
    match ((Path.parent? c.location).map (Path.join · versionFileName)).filter t.isPresent with
    | some path => .error (.oldStyle path)
    | none => .error .neverGenerated

/-- The categories listed in a fragment, malformed ones reported and left out. -/
def readFragment (path content : String) : Scan NamesMemo (List Category) :=
  ((Text.lines content).filter fun l => !l.isEmpty).foldlM (fun found l => do
    match Category.parse l with
    | .ok category => return Ascending.insert category found
    | .error e => do
      Scan.warn (.malformed path e)
      return found) []

/-- A package without a fragment is in no category. -/
def readPackage (c : NamesCache) (p : PackageName) : Scan NamesMemo (List Category) := do
  let path := c.fragmentFile p.text
  match (← read).readText path with
  | .ok content => readFragment path content
  | .error .missing => return []
  | .error problem => do
    Scan.warn (.cannotRead path problem)
    return []

/-- The categories that contain a package, or nothing if the cache cannot be used. -/
def lookup (c : NamesCache) (p : PackageName) : Scan NamesMemo (Option (List Category)) := do
  let memo ← Scan.memo
  if !memo.usable then return none
  if let some categories := memo.entries.get? p then return some categories
  if !memo.checked then
    if let .error problem := c.check (← read) then
      Scan.warn (.namesCacheUnusable c.repository c.location problem)
      Scan.setMemo { memo with usable := false }
      return none
    Scan.setMemo { memo with checked := true }
  let categories ← c.readPackage p
  Scan.modifyMemo fun memo => { memo with entries := memo.entries.insert p categories }
  return some categories

def invalidate (c : NamesCache) : Scan NamesMemo Unit := Scan.setMemo c.freshMemo

/-! ## Regeneration -/

/-- What has to be removed before the directory can be written. -/
def clearSteps (c : NamesCache) (t : FileTree) : Except Error (List FileStep) :=
  match t.list c.location with
  | .ok names => .ok (names.map fun name => .remove (Path.join c.location name))
  | .error .missing => .ok []
  | .error problem =>
    if t.isFile c.location then .ok [.remove c.location] else .error (.file c.location problem)

/-- The fragment of each package, by package: its categories in the order of the list. -/
def fragments (packages : List QualifiedName) : List (String × String) :=
  let table := packages.foldl
    (fun (t : Table String String) n => t.update n.package.text "" (· ++ n.category.text ++ "\n")) ∅
  table.entries.mergeSort fun a b => compare a.1 b.1 != .gt

def versionContent (c : NamesCache) : String :=
  namesCacheFormat ++ "\n" ++ c.repository ++ "\n"

/-- The writes of a regeneration, in order. -/
def writeSteps (c : NamesCache) (packages : List QualifiedName) : List FileStep :=
  (fragments packages).map (fun f => .write (c.fragmentFile f.1) f.2) ++
    [.write c.versionFile c.versionContent]

/-- All steps of a regeneration, in order. -/
def steps (c : NamesCache) (t : FileTree) (packages : List QualifiedName) :
    Except Error (List FileStep) :=
  (c.clearSteps t).map fun clear => clear ++ (.makeDirs c.location :: c.writeSteps packages)

/-- A file that cannot be written is reported and left out; any other failure ends the work. -/
def performStep (step : FileStep) : Change NamesMemo Unit :=
  match step with
  | .write .. => Change.performLoosely step
  | _ => Change.perform step

/-- Writes the cache anew from the packages of the repository; a disabled cache is left alone. -/
def regenerate (c : NamesCache) (packages : List QualifiedName) : Change NamesMemo Unit := do
  if isDisabled c.location then return
  let steps ← c.steps (← get).files packages
  steps.forM performStep
  Change.scan c.invalidate

end NamesCache

end PackageCatalog
