import PackageCatalog.Catalog.Basic

/-!
# Virtuals of a catalogue

The entries of the two kinds of repository that hold virtuals are collected from the other
registered repositories: installed virtuals from what installed packages provide, declared virtuals
from the active profiles, with every version of a default provider that a source repository has.

The record of a virtual is made of that of its best provider.  A provider may be in a repository of
virtuals itself, once another repository has taken the name of the one it was found in; where such
providers go round in a circle there is no record, and `ConfigurationProblem.virtualsCircle` stands
for the search that does not come to an end.
-/

namespace PackageCatalog

def virtualCategory : Category := ⟨"virtual", by decide +kernel⟩

namespace CatalogM

variable {α : Type}

/-! ## Collecting entries -/

/-- What the installed packages of all registered repositories provide. -/
def providedEntries : CatalogM (List RankedEntry) := do
  let lists ← (← needRegistry).mapM fun g => do
    let entries := (← onInstalled? g.number (·.provided)).getD []
    return entries.map fun e => ⟨g.importance, e⟩
  return lists.flatten

/-- The versions of a provider in one repository that a declaration accepts. -/
def acceptedVersions (r : EbuildRepository) (atom : Atom) (provider : QualifiedName) :
    Scan EbuildMemo (List Version) := do
  let versions ← EbuildMemo.onIndex (r.index.versions provider)
  versions.filterM fun v => atom.acceptsM provider v r.name do
    match ← (EbuildMemo.onIndex (r.index.metadata provider v)).attempt with
    | .ok m => return some m.slot
    | .error _ => return none

/-- The entries of one declared virtual: the accepted versions of its provider in all registered
source repositories. -/
def entriesOf (ranked : List Registered) (virtualName provider : QualifiedName) (atom : Atom) :
    CatalogM (List RankedEntry) := do
  let lists ← ranked.mapM fun g => do
    let found ← onEbuild? g.number fun r => do
      return (← acceptedVersions r atom provider).map fun v =>
        (⟨g.importance, virtualName, v, provider, r.name⟩ : RankedEntry)
    return found.getD []
  return lists.flatten

/-- What the active profiles of all registered source repositories declare; a declaration without
the name of a package is reported and left out. -/
def declaredEntries : CatalogM (List RankedEntry) := do
  let ranked ← needRegistry
  let lists ← ranked.mapM fun g => do
    let declared := (← onEbuild? g.number (·.virtualPackages)).getD []
    let lists ← declared.mapM fun (virtualName, atom) => do
      match atom.qualifiedName with
      | .ok provider => entriesOf ranked virtualName provider atom
      | .error e => do
        let repository := (← get).nameOf g.number
        modify fun c => { c with
          warnings := c.warnings ++ [.virtualSkipped repository virtualName.text e] }
        return []
    return lists.flatten
  return lists.flatten

/-! ## Provider indexes -/

/-- The provider index of a repository, as far as it was built. -/
def recallIndex (number : Nat) : CatalogM (Option ProviderIndex) := do
  match (← get).repositories[number]? with
  | some (.installedVirtuals _ memo) => return memo
  | some (.virtuals memo) => return memo
  | _ => return none

def keepIndex (number : Nat) (x : ProviderIndex) : CatalogM Unit := do
  match (← get).repositories[number]? with
  | some (.installedVirtuals root _) => setRepository number (.installedVirtuals root (some x))
  | some (.virtuals _) => setRepository number (.virtuals (some x))
  | _ => return

def collect (number : Nat) : CatalogM (List RankedEntry) := do
  match (← get).repositories[number]? with
  | some (.installedVirtuals ..) => providedEntries
  | some (.virtuals _) => declaredEntries
  | _ => return []

/-- The provider index of a repository of virtuals. -/
def virtualsMemo (number : Nat) : VirtualsMemo CatalogM :=
  ⟨recallIndex number, keepIndex number, collect number⟩

/-! ## Records -/

/-- The best provider of a virtual, and the number of the repository that has it. -/
def bestProvider (number : Nat) (n : QualifiedName) (v : Version) :
    CatalogM (VirtualEntry × Nat) := do
  match ← (virtualsMemo number).ask n.category none (·.best n v) with
  | none => throw (.noSuchPackage n.text v.text ((← get).nameOf number))
  | some e =>
    discard needRegistry
    match (← get).fetch e.repository with
    | none => throw (.configuration (.providerGone e.repository))
    | some provider => return (e, provider)

/-- The record of an installed virtual. -/
def installedRecord (number : Nat) (n : QualifiedName) (v : Version) : CatalogM Metadata := do
  let (e, provider) ← bestProvider number n v
  match ← onInstalled? provider (·.providedMetadata e) with
  | some m => return m
  | none => throw (.configuration (.providesNothing e.repository))

/-- The record of a declared virtual, made of that of its provider; `follow` finds the record of a
provider that is a declared virtual itself. -/
def recordBy (follow : Nat → QualifiedName → Version → CatalogM Metadata) (number : Nat)
    (n : QualifiedName) (v : Version) : CatalogM Metadata := do
  let (e, provider) ← bestProvider number n v
  if let some m ← onEbuild? provider (·.virtualMetadata e) then return m
  let m ← match (← get).repositories[provider]? with
    | some (.installed ..) => do
      match ← onInstalled? provider fun r =>
          InstalledMemo.onIndex (r.index.metadata e.provider e.version) with
      | some m => pure m
      | none => throw (.configuration (.providerGone e.repository))
    | some (.installedVirtuals ..) => installedRecord provider e.provider e.version
    | some (.virtuals _) => follow provider e.provider e.version
    | _ => throw (.configuration (.providerGone e.repository))
  Metadata.forVirtual e.virtualName e.provider e.version m

/-- The record of a declared virtual, where at most `fuel` virtuals are looked up, each the provider
of the one before. -/
def recordWithin : Nat → Nat → QualifiedName → Version → CatalogM Metadata
  | 0 => fun _ _ _ => throw (.configuration .virtualsCircle)
  | fuel + 1 => recordBy (recordWithin fuel)

/-- The record of a declared virtual in the repository registered as `virtuals`.  A provider that is
a declared virtual itself is in the same repository; each provider takes an entry of its index, so
one look-up for each entry and one more are enough, unless virtuals provide one another in a circle.
-/
def registeredRecord (number : Nat) (n : QualifiedName) (v : Version) : CatalogM Metadata := do
  let size ← (virtualsMemo number).ask n.category 0 (·.size)
  recordWithin (size + 1) number n v

/-- The record of a declared virtual in any repository of them: a provider that is a declared
virtual itself is in the one registered as `virtuals`. -/
def declaredRecord : Nat → QualifiedName → Version → CatalogM Metadata :=
  recordBy registeredRecord

/-- The record of a virtual, by the kind of the repository that is asked. -/
def virtualRecord (number : Nat) (n : QualifiedName) (v : Version) : CatalogM Metadata := do
  match (← get).repositories[number]? with
  | some (.installedVirtuals ..) => installedRecord number n v
  | _ => declaredRecord number n v

/-! ## Questions -/

def answerVirtuals (number : Nat) : Question α → CatalogM α
  | .hasCategory c => (virtualsMemo number).ask c false (·.hasCategory c)
  | .categories => categories
  | .packages c => (virtualsMemo number).ask c [] (·.packages c)
  | .hasPackage n => (virtualsMemo number).ask n.category false (·.hasPackage n)
  | .versions n => (virtualsMemo number).ask n.category [] (·.versions n)
  | .hasVersion n v => (virtualsMemo number).ask n.category false (·.hasVersion n v)
  | .metadata n v => virtualRecord number n v
  | .containing p => do
    (← categories).filterM fun c =>
      (virtualsMemo number).ask c false (·.hasPackage ⟨c, p⟩)
where
  /-- The category `virtual`, if it is not empty. -/
  categories : CatalogM (List Category) := do
    if ← (virtualsMemo number).ask virtualCategory false (·.hasCategory virtualCategory) then
      return [virtualCategory]
    else return []

/-- The answer of a repository to a question. -/
def answer (number : Nat) (question : Question α) : CatalogM α := do
  if let some a ← onEbuild? number (·.answer question) then return a
  if let some a ← onInstalled? number (·.answer question) then return a
  answerVirtuals number question

/-! ## Masks -/

/-- The answer of a repository about its masks, where a source repository answers `query`; nothing
is masked among installed virtuals, and other repositories have no masks. -/
def masked? (number : Nat) (query : EbuildRepository → Scan EbuildMemo Bool) :
    CatalogM (Option Bool) := do
  if let some masked ← onEbuild? number query then return some masked
  match (← get).repositories[number]? with
  | some (.installedVirtuals ..) => return some false
  | _ => return none

def repositoryMasked? (number : Nat) (n : QualifiedName) (v : Version) : CatalogM (Option Bool) :=
  masked? number (·.repositoryMasked n v)

def profileMasked? (number : Nat) (n : QualifiedName) (v : Version) : CatalogM (Option Bool) :=
  masked? number (·.profileMasked n v)

end CatalogM

end PackageCatalog
