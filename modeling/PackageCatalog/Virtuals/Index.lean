import PackageCatalog.Ascending
import PackageCatalog.Error
import PackageCatalog.Name.Basic
import PackageCatalog.Version.Order
import PackageCatalog.Virtuals.Search

/-!
# The index of virtuals and their providers

Each entry says that a package version provides a virtual at that version.  A `ProviderIndex` holds
the entries in one order, by virtual, then by version, then the best provider first: the one from
the most important repository, and within it the one with the greatest name.  Queries are ranges of
that order.  Only the category `virtual` holds virtuals; nothing else is ever looked up
(`VirtualsMemo.ask`).
-/

namespace PackageCatalog

/-- One provider of one version of a virtual. -/
structure VirtualEntry where
  virtualName : QualifiedName
  version : Version
  provider : QualifiedName
  /-- The name of the repository that holds the provider. -/
  repository : String
  deriving DecidableEq

/-- An entry with the importance of the provider's repository. -/
structure RankedEntry where
  importance : Int
  entry : VirtualEntry
  deriving DecidableEq

/-- By virtual, by version, by descending importance, by descending name of the provider. -/
def RankedEntry.order (a b : RankedEntry) : Ordering :=
  (compare a.entry.virtualName b.entry.virtualName).then <|
    (compare a.entry.version b.entry.version).then <|
    (compare b.importance a.importance).then <|
    compare b.entry.provider a.entry.provider

def isVirtual (c : Category) : Bool := c.text == "virtual"

/-- The entries in the order of `RankedEntry.order`. -/
structure ProviderIndex where
  entries : Array VirtualEntry

namespace ProviderIndex

/-! ## Building -/

/-- Entries that tie keep the order in which they were given. -/
def ofRanked (ranked : List RankedEntry) : ProviderIndex :=
  ⟨((ranked.mergeSort fun a b => a.order b != .gt).map RankedEntry.entry).toArray⟩

/-! ## Queries -/

def inCategory (x : ProviderIndex) (c : Category) : List VirtualEntry :=
  Virtuals.between (fun e => compare e.virtualName.category c == .lt)
    (fun e => compare e.virtualName.category c != .gt) x.entries

/-- All entries of a virtual, the best provider first in each version. -/
def named (x : ProviderIndex) (n : QualifiedName) : List VirtualEntry :=
  Virtuals.between (fun e => compare e.virtualName n == .lt)
    (fun e => compare e.virtualName n != .gt) x.entries

/-- The entries of one version of a virtual, the best provider first. -/
def ofVersion (x : ProviderIndex) (n : QualifiedName) (v : Version) : List VirtualEntry :=
  Virtuals.between (fun e => compare e.version v == .lt)
    (fun e => compare e.version v != .gt) (x.named n).toArray

def best (x : ProviderIndex) (n : QualifiedName) (v : Version) : Option VirtualEntry :=
  (x.ofVersion n v).head?

def hasCategory (x : ProviderIndex) (c : Category) : Bool := !(x.inCategory c).isEmpty

def packages (x : ProviderIndex) (c : Category) : List QualifiedName :=
  Ascending.ofList ((x.inCategory c).map VirtualEntry.virtualName)

def hasPackage (x : ProviderIndex) (n : QualifiedName) : Bool := !(x.named n).isEmpty

def versions (x : ProviderIndex) (n : QualifiedName) : List Version :=
  Ascending.ofList ((x.named n).map VirtualEntry.version)

def hasVersion (x : ProviderIndex) (n : QualifiedName) (v : Version) : Bool :=
  (x.best n v).isSome

def size (x : ProviderIndex) : Nat := x.entries.size

end ProviderIndex

/-! ## Building on demand -/

/-- Where an index is remembered between queries, and where its entries come from. -/
structure VirtualsMemo (m : Type → Type) where
  remembered : m (Option ProviderIndex)
  keep : ProviderIndex → m Unit
  source : m (List RankedEntry)

namespace VirtualsMemo

variable {m : Type → Type} [Monad m] {α : Type}

/-- The index, built from the source unless it is remembered. -/
def index (memo : VirtualsMemo m) : m ProviderIndex := do
  match ← memo.remembered with
  | some x => return x
  | none =>
    let x := ProviderIndex.ofRanked (← memo.source)
    memo.keep x
    return x

/-- What the index answers about a category; other categories than `virtual` are empty without a
look at the index. -/
def ask (memo : VirtualsMemo m) (c : Category) (nothing : α) (query : ProviderIndex → α) : m α := do
  if isVirtual c then return query (← memo.index) else return nothing

end VirtualsMemo

end PackageCatalog
