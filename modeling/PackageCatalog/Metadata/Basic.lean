import PackageCatalog.Atom.Expression
import PackageCatalog.Eapi
import PackageCatalog.Keyword
import PackageCatalog.Name.Versioned
import PackageCatalog.Warning

/-!
# Metadata of package versions

`Metadata.ofKeys` builds the record of a package version from its keyed values.  Absent keys count
as empty, but a description and a slot are required, and an absent `RDEPEND` may take the value of
`DEPEND`.  `Metadata.forVirtual` is the record of a virtual for one of its providers.
-/

namespace PackageCatalog

/-- The metadata of one package version. -/
structure Metadata where
  eapi : String
  description : String
  slot : Slot
  homepage : List String
  srcUri : List String
  license : String
  keywords : List Keyword
  depend : List Dependency
  rdepend : List Dependency
  pdepend : List Dependency
  /-- The virtuals that the package version provides. -/
  provide : List QualifiedName
  /-- The provider, in the record of a virtual. -/
  virtualFor : Option QualifiedName

namespace Metadata

/-! ## Fields -/

/-- The first slash separates the sub-slot. -/
def parseSlot (s : String) : Except Error Slot :=
  if s.isEmpty then .error (.missingField "SLOT")
  else match Text.cut? '/' s with
    | some (slot, subslot) => .ok ⟨slot, some subslot⟩
    | none => .ok ⟨s, none⟩

/-- The tokens of a `PROVIDE` value that should be names of virtuals; brackets and the heads of
conditional groups are passed over. -/
def provideTokens (s : String) : List String :=
  (Text.words s).filter fun token =>
    token.toList.getLast? != some '?' && token != "(" && token != ")"

def parseProvide (s : String) : List QualifiedName :=
  (provideTokens s).filterMap fun token => (QualifiedName.parse token).toOption

/-- One warning for each token of a `PROVIDE` value that is no name. -/
def provideWarnings (s : String) : List Warning :=
  (provideTokens s).filterMap fun token =>
    match QualifiedName.parse token with
    | .ok _ => none
    | .error e => some (.provideIgnored token e)

/-! ## Records -/

/-- The trimmed value of a key, empty if it is absent. -/
def field (keys : Table String String) (key : String) : String :=
  Text.trim ((keys.get? key).getD "")

/-- An empty EAPI is EAPI 0. -/
def eapiName (s : String) : String := if s.isEmpty then "0" else s

def ofKeys (eapis : Option EapiTable) (keys : Table String String) : Except Error Metadata := do
  let eapi := eapiName (field keys "EAPI")
  let defaults ← rdependDefaultsFor eapis eapi
  let description ← match keys.get? "DESCRIPTION" with
    | some d => Except.ok (Text.trim d)
    | none => .error (.missingField "DESCRIPTION")
  let slot ← parseSlot (field keys "SLOT")
  let depend ← Dependency.parseList (field keys "DEPEND")
  let rdepend ← match keys.get? "RDEPEND" with
    | some value => Dependency.parseList (Text.trim value)
    | none => .ok (if defaults then depend else [])
  let keywords ← Keyword.parseList (field keys "KEYWORDS")
  let pdepend ← Dependency.parseList (field keys "PDEPEND")
  return {
    eapi, description, slot, depend, rdepend, pdepend, keywords
    homepage := Text.words (field keys "HOMEPAGE")
    srcUri := Text.words (field keys "SRC_URI")
    license := field keys "LICENSE"
    provide := parseProvide (field keys "PROVIDE")
    virtualFor := none
  }

/-- The record that a virtual has through one provider: it depends on exactly that version of the
provider, and has its EAPI and slot. -/
def forVirtual (virtualName provider : QualifiedName) (version : Version) (m : Metadata) :
    Except Error Metadata := do
  let atom ← Atom.parse ("=" ++ provider.versioned version)
  return {
    eapi := m.eapi
    description := s!"Virtual {virtualName.text} for {provider.text}"
    slot := m.slot
    homepage := []
    srcUri := []
    license := ""
    keywords := []
    depend := [.atom atom]
    rdepend := [.atom atom]
    pdepend := []
    provide := []
    virtualFor := some provider
  }

/-- The known EAPI level of a record, if its EAPI is one. -/
def knownEapi (m : Metadata) : Option Eapi := (Eapi.parse m.eapi).toOption

def stability (m : Metadata) (arch : String) : Option Stability :=
  Keyword.stabilityFor m.keywords arch

end Metadata

end PackageCatalog
