import PackageCatalog.Index.Question
import PackageCatalog.NamesCache
import PackageCatalog.Profile.Chain
import PackageCatalog.Virtuals.Index

/-!
# Source repositories

A source repository is a tree of entry files with profiles.  It may have a master, whose profiles,
categories and licences it inherits.  Its configuration keys are:

    location            the root of the tree; required
    name                or else the name in profiles/repo_name, or else made from the location
    master_repository   the name of the master
    profiles            the directories of the default profile
    names_cache         where names caches are kept, or else below the location
    entry_format        how metadata is read
    sync, sync_options  targets to sync from, and options for the transport
-/

namespace PackageCatalog

/-- What a repository is made with besides its keys. -/
structure RepositoryContext where
  eapis : Option EapiTable
  /-- The transport of the repository, by its number. -/
  transport : Option Nat
  /-- The location of a master. -/
  masterLocation : String → Except Error String
  shuffle : Shuffle

structure EbuildRepository where
  name : String
  location : String
  masterLocation : Option String
  transport : Option Nat
  targets : String
  options : String
  index : Index
  profiles : ProfileChain
  namesCache : NamesCache

structure EbuildMemo where
  index : IndexMemo := {}
  profiles : ChainMemo := {}
  names : NamesMemo

namespace EbuildMemo

variable {α : Type}

def onIndex (s : Scan IndexMemo α) : Scan EbuildMemo α :=
  s.zoom index fun memo index => { memo with index := index }

def onProfiles (s : Scan ChainMemo α) : Scan EbuildMemo α :=
  s.zoom profiles fun memo profiles => { memo with profiles := profiles }

def onNames (s : Scan NamesMemo α) : Scan EbuildMemo α :=
  s.zoom names fun memo names => { memo with names := names }

end EbuildMemo

namespace EbuildRepository

/-! ## Names -/

variable {σ : Type}

/-- The name in the file `profiles/repo_name`; a malformed or unreadable one is reported. -/
def declaredName? (location : String) : Scan σ (Option RepositoryName) := do
  let path := Path.join (Path.join location "profiles") "repo_name"
  match ← (Config.readLineFile path).attempt with
  | .ok (some (first :: _)) =>
    match RepositoryName.parse first with
    | .ok name => return some name
    | .error e => do
      Scan.warn (.malformed path e)
      return none
  | .ok _ => return none
  | .error e => do
    Scan.warn (.repositoryNameUnreadable e)
    return none

/-- The name of a repository that declares none. -/
def fallbackName (location : String) : String := "x-" ++ (Path.fileName? location).getD ""

def fetchName (location : String) : Scan σ String := do
  match ← declaredName? location with
  | some name => return name.text
  | none => do
    let name := fallbackName location
    Scan.warn (.repositoryNameMissing (Path.join location "profiles") name)
    return name

/-! ## Making repositories -/

def namesCacheBase (keys : RepositoryKeys) (location : String) : String :=
  (keys.value? "names_cache").getD (Path.join (Path.join location ".cache") "names")

def ofKeys (context : RepositoryContext) (keys : RepositoryKeys) : Scan σ EbuildRepository := do
  let location ← keys.require "location"
  let name ← match keys.value? "name" with
    | some name => pure (← RepositoryName.parse name).text
    | none => fetchName location
  let masterLocation ←
    ((keys.value? "master_repository").mapM context.masterLocation : Except Error (Option String))
  let own := Path.join location "profiles"
  let profilesDirs := (masterLocation.map (Path.join · "profiles")).toList ++
    (if (← read).isPresent own then [own] else [])
  let format ← EntryFormat.parse ((keys.value? "entry_format").getD "ebuild")
  return {
    name, location, masterLocation
    transport := context.transport
    targets := (keys.value? "sync").getD ""
    options := (keys.value? "sync_options").getD ""
    index := ⟨name, location, .tree, profilesDirs, ⟨format, context.eapis⟩⟩
    profiles := ⟨name, profilesDirs, Text.words ((keys.value? "profiles").getD ""), context.shuffle⟩
    namesCache := .ofBase (namesCacheBase keys location) name
  }

def freshMemo (r : EbuildRepository) : EbuildMemo := { names := r.namesCache.freshMemo }

/-! ## Questions -/

open EbuildMemo (onIndex onProfiles onNames)

/-- The names cache, if it can be used, saves the index from being asked for a package name. -/
def answer {α : Type} (r : EbuildRepository) : Question α → Scan EbuildMemo α
  | .containing p => do
    match ← onNames (r.namesCache.lookup p) with
    | some categories => return categories
    | none => onIndex (r.index.categoriesContaining p)
  | question => onIndex (r.index.answer question)

/-- The slot of a package version; that it has none is reported. -/
def slotOf (r : EbuildRepository) (n : QualifiedName) (v : Version) :
    Scan EbuildMemo (Option Slot) := do
  match ← (onIndex (r.index.metadata n v)).attempt with
  | .ok m => return some m.slot
  | .error e => do
    Scan.warn (.noSlot r.name (n.versioned v) e)
    return none

def repositoryMasked (r : EbuildRepository) (n : QualifiedName) (v : Version) :
    Scan EbuildMemo Bool :=
  r.profiles.repositoryMasked onProfiles n v (r.slotOf n v)

def profileMasked (r : EbuildRepository) (n : QualifiedName) (v : Version) :
    Scan EbuildMemo Bool :=
  r.profiles.profileMasked onProfiles n v (r.slotOf n v)

/-- The virtuals that the active profile declares. -/
def virtualPackages (r : EbuildRepository) : Scan EbuildMemo (List (QualifiedName × Atom)) :=
  onProfiles r.profiles.virtuals

/-- The record of a virtual through a provider in this repository. -/
def virtualMetadata (r : EbuildRepository) (e : VirtualEntry) : Scan EbuildMemo Metadata := do
  if e.repository != r.name then
    throw (.configuration (.otherProvider e.virtualName.text e.repository r.name))
  onIndex (r.index.virtualMetadata e.virtualName e.provider e.version)

/-- The file of a licence; one of this tree goes before one of the master. -/
def license? (r : EbuildRepository) (t : FileTree) (license : String) : Option String :=
  let file (location : String) := Path.join (Path.join location "licenses") license
  ((r.location :: r.masterLocation.toList).map file).find? t.isFile

/-! ## Changes -/

def invalidate (r : EbuildRepository) : Scan EbuildMemo Unit := Scan.setMemo r.freshMemo

/-- Writes the names cache anew from the packages of the index. -/
def regenerate (r : EbuildRepository) : Change EbuildMemo Unit := do
  let names ← Change.scan (onIndex r.index.allPackages)
  (r.namesCache.regenerate names).zoom EbuildMemo.names fun memo names =>
    { memo with names := names }

end EbuildRepository

end PackageCatalog
