import PackageCatalog.Repository.Installed

/-!
# The kinds of repository

Besides source repositories and databases of installed packages there are two that hold virtuals
alone: the virtuals that installed packages provide, and the virtuals that profiles declare.  Those
two have no files of their own; they remember a provider index that is built from the other
repositories of a catalogue.
-/

namespace PackageCatalog

inductive RepositoryKind where
  | ebuild
  | installed
  | installedVirtuals
  | virtuals
  deriving DecidableEq

/-- The format of a kind of repository, as configurations name it. -/
def RepositoryKind.format : RepositoryKind → String
  | .ebuild => "ebuild"
  | .installed => "vdb"
  | .installedVirtuals => "installed_virtuals"
  | .virtuals => "virtuals"

/-- A repository with what it remembers. -/
inductive Repository where
  | ebuild (r : EbuildRepository) (memo : EbuildMemo)
  | installed (r : InstalledRepository) (memo : InstalledMemo)
  | installedVirtuals (root : String) (memo : Option ProviderIndex)
  | virtuals (memo : Option ProviderIndex)

/-- What a repository can do besides answering questions. -/
inductive Capability where
  | mask
  | installed
  | virtuals
  | provides
  | sync
  deriving DecidableEq

def Capability.name : Capability → String
  | .mask => "mask"
  | .installed => "installed"
  | .virtuals => "virtuals"
  | .provides => "provides"
  | .sync => "sync"

def RepositoryKind.capabilities : RepositoryKind → List Capability
  | .ebuild => [.mask, .virtuals, .sync]
  | .installed => [.installed, .provides]
  | .installedVirtuals => [.mask, .installed]
  | .virtuals => []

/-- A character that may stand in the name of a repository; a hyphen takes the place of any other.
-/
def repositoryNameChar (c : Char) : Char :=
  if c.isAlphanum || c == '_' || c == '-' then c else '-'

/-- The name of the repository of virtuals installed below a root. -/
def installedVirtualsName (root : String) : String :=
  if Path.same root "/" then "installed_virtuals"
  else String.ofList (("installed_virtuals-" ++ root).toList.map repositoryNameChar)

namespace Repository

def kind : Repository → RepositoryKind
  | .ebuild .. => .ebuild
  | .installed .. => .installed
  | .installedVirtuals .. => .installedVirtuals
  | .virtuals _ => .virtuals

def name : Repository → String
  | .ebuild r _ => r.name
  | .installed r _ => r.name.text
  | .installedVirtuals root _ => installedVirtualsName root
  | .virtuals _ => "virtuals"

def location? : Repository → Option String
  | .ebuild r _ => some r.location
  | .installed r _ => some r.location
  | .installedVirtuals .. => none
  | .virtuals _ => none

/-- Where the packages of the repository are installed. -/
def root? : Repository → Option String
  | .installed r _ => some r.root
  | .installedVirtuals root _ => some root
  | .ebuild .. => none
  | .virtuals _ => none

def can (r : Repository) (c : Capability) : Bool := c ∈ r.kind.capabilities

/-- The repository with nothing remembered. -/
def invalidated : Repository → Repository
  | .ebuild r _ => .ebuild r r.freshMemo
  | .installed r _ => .installed r r.freshMemo
  | .installedVirtuals root _ => .installedVirtuals root none
  | .virtuals _ => .virtuals none

@[simp] theorem name_invalidated (r : Repository) : r.invalidated.name = r.name := by
  cases r <;> rfl

@[simp] theorem kind_invalidated (r : Repository) : r.invalidated.kind = r.kind := by
  cases r <;> rfl

end Repository

end PackageCatalog
