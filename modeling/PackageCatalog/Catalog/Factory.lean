import PackageCatalog.Catalog.Virtuals

/-!
# Making repositories

A factory knows which kind of repository each format name stands for.  Repositories are made from
their keys, in the context of a catalogue: its files, its registry, its EAPI levels and its current
transport.
-/

namespace PackageCatalog

/-! ## Factories -/

abbrev Factory := Table String RepositoryKind

namespace Factory

def empty : Factory := ∅

/-- The formats that are known from the start. -/
def builtIn : Factory :=
  .ofList <| [.ebuild, .installed, .installedVirtuals, .virtuals].map fun
    (kind : RepositoryKind) => (kind.format, kind)

/-- The known formats, in ascending order. -/
def formats (f : Factory) : List String := Ascending.ofList f.keys

end Factory

/-- What to do about a format that is not known. -/
inductive MissingFormat where
  | error
  | ignore
  deriving DecidableEq

namespace CatalogM

/-! ## From keys -/

/-- The location of a master: a registered source repository. -/
def masterLocation (c : Catalog) (master : String) : Except Error String := do
  if c.registry.isNone then throw (.configuration .registryGone)
  match c.fetch master with
  | none => throw (.configuration (.noMaster master))
  | some number =>
    match c.repositories[number]? with
    | some (.ebuild r _) => return r.location
    | _ => throw (.configuration (.masterNotEbuild master))

def context (c : Catalog) : RepositoryContext :=
  ⟨c.eapis, c.transport, masterLocation c, c.shuffle⟩

/-- Makes a repository of a kind; it is part of the catalogue, but not registered. -/
def make (kind : RepositoryKind) (keys : RepositoryKeys) : CatalogM Nat := do
  let context := context (← get)
  match kind with
  | .ebuild => do
    let r ← scan (EbuildRepository.ofKeys context keys)
    addRepository (.ebuild r r.freshMemo)
  | .installed => do
    let r ← InstalledRepository.ofKeys context keys
    addRepository (.installed r r.freshMemo)
  | .installedVirtuals =>
    match keys.value? "root" with
    | some root => addRepository (.installedVirtuals root none)
    | none => throw (.configuration .noRoot)
  | .virtuals => addRepository (.virtuals none)

/-- Makes a repository of the format `format`; a format that is not known may be ignored. -/
def create? (f : Factory) (missing : MissingFormat) (format : String) (keys : RepositoryKeys) :
    CatalogM (Option Nat) := do
  match f.get? format, missing with
  | some kind, _ => return some (← make kind keys)
  | none, .error => throw (.unknownFormat format)
  | none, .ignore => return none

/-- Makes a repository of the format `format`, which has to be known. -/
def create (f : Factory) (format : String) (keys : RepositoryKeys) : CatalogM Nat := do
  match ← create? f .error format keys with
  | some number => return number
  | none => throw (.unknownFormat format)

/-- The importance in the keys, or else zero. -/
def importanceOf (keys : RepositoryKeys) : Except Error Int :=
  match keys.value? "importance" with
  | none => .ok 0
  | some text =>
    match Text.parseInteger text with
    | .ok importance => .ok importance
    | .error problem => .error (.configuration (.importanceNotInteger text problem))

/-- Makes a repository as its keys say, and registers it. -/
def addFromKeys (f : Factory) (keys : RepositoryKeys) : CatalogM Nat := do
  let importance ← importanceOf keys
  if (← get).registry.isNone then throw (.configuration .registryGone)
  let number ← create f ((keys.value? "format").getD "ebuild") keys
  register importance number
  return number

/-! ## Selecting profiles -/

/-- What a repository that is registered as the repository of virtuals remembers depends on the
active profiles, and is dropped when one of them changes. -/
def invalidateVirtuals : CatalogM Unit :=
  modify fun c => match c.fetch (Repository.name (.virtuals none)) with
    | some number => c.invalidate number
    | none => c

/-- Selects the profile of the descriptor at a position; tells whether there is one. -/
def selectProfile (number position : Nat) : CatalogM Bool := do
  let found ← onEbuild? number fun r => EbuildMemo.onProfiles (r.profiles.select position)
  if found == some true then invalidateVirtuals
  return found == some true

/-- Selects the profile of a descriptor made by hand. -/
def adoptProfile (number : Nat) (d : ProfileDescriptor) : CatalogM (Option Unit) := do
  let found ← onEbuild? number fun _ => EbuildMemo.onProfiles (ProfileChain.adopt d)
  if found.isSome then invalidateVirtuals
  return found

/-- Selects a profile for an architecture. -/
def selectProfileByArch (number : Nat) (arch : String) : CatalogM (Option ProfileDescriptor) := do
  let found ← onEbuild? number fun r => EbuildMemo.onProfiles (r.profiles.selectByArch arch)
  if found.isSome then invalidateVirtuals
  return found

/-! ## Transports and syncing -/

/-- Adds a transport, to be used by the repositories made from now on. -/
def addTransport (transport : Transport) : CatalogM Unit :=
  modify fun c => { c with
    transports := c.transports ++ [⟨transport, []⟩]
    transport := some c.transports.length }

/-- The attempts of a transport are logged with it. -/
def sync (r : EbuildRepository) : CatalogM Bool := do
  if (Text.trim r.targets).isEmpty then return false
  let c ← get
  match r.transport.bind fun k => (c.transports[k]?).map fun log => (k, log) with
  | none => throw (.configuration (.noTransport r.name))
  | some (k, log) =>
    let outcome := syncTargets log.transport r.location r.targets r.options
    let log := { log with attempts := log.attempts ++ outcome.attempts }
    set { c with
      transports := c.transports.set k log
      warnings := c.warnings ++ outcome.warnings }
    outcome.result

/-! ## EAPI levels -/

/-- The definition in a file, if the file is one of definitions: the name of the file up to its
extension `conf` is that of the EAPI. -/
def readDefinition (dir file : String) : Scan Unit (Option EapiDefinition) := do
  match Path.stemAndExtension? file with
  | some (name, "conf") =>
    return (← Config.readAssignmentFile (Path.join dir file)).map fun pairs =>
      ⟨name, Table.ofList pairs⟩
  | _ => return none

/-- The EAPI levels that the files of a directory define. -/
def readEapis (dir : String) : Scan Unit EapiTable := do
  let files ← match (← read).list dir with
    | .ok files => pure files
    | .error .missing => throw (.configuration (.noEapiDirectory dir))
    | .error problem => throw (.file dir problem)
  let definitions ← files.mapM (readDefinition dir)
  match EapiTable.ofDefinitions (definitions.filterMap id) with
  | .ok table => return table
  | .error problem => throw (.configuration (.inside dir problem))

end CatalogM

end PackageCatalog
