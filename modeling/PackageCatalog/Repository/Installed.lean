import PackageCatalog.Repository.Ebuild

/-!
# Installed packages

The database of installed packages has a directory for each installed version.  What virtuals they
provide is kept in a provides cache:

    the format tag
    the name of the repository
    category/package version virtual virtual ...

A cache that is absent or has another header is not used, and the metadata of all packages is read
instead.  The configuration keys are `location` (required), `root`, `name`, `names_cache` and
`provides_cache`.
-/

namespace PackageCatalog

def providesCacheFormat : String := "provides-1"

structure InstalledRepository where
  name : RepositoryName
  location : String
  /-- Where the packages are installed. -/
  root : String
  providesCache : String
  index : Index
  namesCache : NamesCache

structure InstalledMemo where
  index : IndexMemo := {}
  names : NamesMemo
  provides : Option (List VirtualEntry) := none

namespace InstalledMemo

variable {α : Type}

def onIndex (s : Scan IndexMemo α) : Scan InstalledMemo α :=
  s.zoom index fun memo index => { memo with index := index }

def onNames (s : Scan NamesMemo α) : Scan InstalledMemo α :=
  s.zoom names fun memo names => { memo with names := names }

end InstalledMemo

namespace InstalledRepository

/-! ## Making repositories -/

def ofKeys (context : RepositoryContext) (keys : RepositoryKeys) :
    Except Error InstalledRepository := do
  let location ← keys.require "location"
  let name ← RepositoryName.parse ((keys.value? "name").getD "installed")
  return {
    name, location
    root := (keys.value? "root").getD "/"
    providesCache :=
      (keys.value? "provides_cache").getD (Path.join (Path.join location ".cache") "provides")
    index := ⟨name.text, location, .installed, [], ⟨.vdb, context.eapis⟩⟩
    namesCache := .ofBase (EbuildRepository.namesCacheBase keys location) name.text
  }

def freshMemo (r : InstalledRepository) : InstalledMemo := { names := r.namesCache.freshMemo }

/-! ## Questions -/

open InstalledMemo (onIndex onNames)

def answer {α : Type} (r : InstalledRepository) : Question α → Scan InstalledMemo α
  | .containing p => do
    match ← onNames (r.namesCache.lookup p) with
    | some categories => return categories
    | none => onIndex (r.index.categoriesContaining p)
  | question => onIndex (r.index.answer question)

/-! ## Provided virtuals -/

/-- A package version with the virtuals that it provides. -/
structure Provision where
  provider : QualifiedName
  version : Version
  virtuals : List QualifiedName

def Provision.entries (p : Provision) (repository : String) : List VirtualEntry :=
  p.virtuals.map fun virtualName => ⟨virtualName, p.version, p.provider, repository⟩

def Provision.line (p : Provision) : String :=
  p.provider.text ++ " " ++ p.version.text ++ " " ++
    " ".intercalate (p.virtuals.map QualifiedName.text) ++ "\n"

def parseProvision (line : String) : Except Error Provision :=
  match Text.words line with
  | provider :: version :: virtuals => do
    let provider ← QualifiedName.parse provider
    let version ← Version.parse version
    let virtuals ← virtuals.mapM QualifiedName.parse
    return ⟨provider, version, virtuals⟩
  | _ => .error (.badCacheLine line)

/-- The entries of a provides cache with the right header, malformed lines reported and left out. -/
def readProvides (r : InstalledRepository) (content : String) :
    Scan InstalledMemo (Option (List VirtualEntry)) := do
  let lines := Text.lines content
  let format := NamesCache.line lines 0
  let repository := NamesCache.line lines 1
  if format != providesCacheFormat || repository != r.name.text then
    Scan.warn (.providesHeader r.providesCache format repository)
    return none
  let entries ← ((lines.drop 2).filter fun line => !(Text.trim line).isEmpty).foldlM
    (fun entries line => do
      match parseProvision line with
      | .ok p => return entries ++ p.entries r.name.text
      | .error e => do
        Scan.warn (.providesLine line e)
        return entries) []
  return some entries

/-- The entries of the provides cache, unless it is disabled, absent or unusable. -/
def loadProvides (r : InstalledRepository) : Scan InstalledMemo (Option (List VirtualEntry)) := do
  if isDisabled r.providesCache then return none
  match (← read).readText r.providesCache with
  | .ok content => r.readProvides content
  | .error .missing => return none
  | .error problem => do
    Scan.warn (.cannotReadProvides r.providesCache problem)
    return none

/-- What one package version provides, if anything; unreadable metadata is reported. -/
def provisionOf (r : InstalledRepository) (n : QualifiedName) (v : Version) :
    Scan InstalledMemo (Option Provision) := do
  match ← (onIndex (r.index.metadata n v)).attempt with
  | .ok m => return if m.provide.isEmpty then none else some ⟨n, v, m.provide⟩
  | .error e => do
    Scan.warn (.packageSkipped r.name.text (n.versioned v) e)
    return none

/-- What the installed packages provide, by package and version. -/
def scanProvides (r : InstalledRepository) : Scan InstalledMemo (List Provision) := do
  let packages ← onIndex r.index.allPackages
  let found ← packages.mapM fun n => do
    let versions ← onIndex (r.index.versions n)
    versions.mapM (r.provisionOf n)
  return found.flatten.filterMap id

/-- The virtuals that the installed packages provide: from the provides cache if it can be used, and
otherwise from their metadata. -/
def provided (r : InstalledRepository) : Scan InstalledMemo (List VirtualEntry) := do
  match (← Scan.memo).provides with
  | some entries => return entries
  | none =>
    let entries ← match ← r.loadProvides with
      | some entries => pure entries
      | none => pure ((← r.scanProvides).flatMap fun p => p.entries r.name.text)
    Scan.modifyMemo fun memo => { memo with provides := some entries }
    return entries

/-- The record of a virtual through an installed provider. -/
def providedMetadata (r : InstalledRepository) (e : VirtualEntry) : Scan InstalledMemo Metadata :=
  onIndex (r.index.virtualMetadata e.virtualName e.provider e.version)

/-! ## Changes -/

def invalidate (r : InstalledRepository) : Scan InstalledMemo Unit := Scan.setMemo r.freshMemo

def providesContent (r : InstalledRepository) (provisions : List Provision) : String :=
  providesCacheFormat ++ "\n" ++ r.name.text ++ "\n" ++
    String.join (provisions.map Provision.line)

def writeProvides (r : InstalledRepository) : Change InstalledMemo Unit := do
  if isDisabled r.providesCache then return
  let provisions ← Change.scan r.scanProvides
  if let some parent := Path.parent? r.providesCache then
    Change.perform (.makeDirs parent)
  Change.perform (.write r.providesCache (r.providesContent provisions))

/-- Writes the names cache and the provides cache anew from the index. -/
def regenerate (r : InstalledRepository) : Change InstalledMemo Unit := do
  let names ← Change.scan (onIndex r.index.allPackages)
  (r.namesCache.regenerate names).zoom InstalledMemo.names
    fun memo names => { memo with names := names }
  r.writeProvides
  Change.scan (Scan.modifyMemo fun memo => { memo with provides := none })

end InstalledRepository

end PackageCatalog
