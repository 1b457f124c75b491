import PackageCatalog.Atom.Basic
import PackageCatalog.Name.Basic
import PackageCatalog.Version.Order

/-!
# Which package versions an atom accepts

A constraint without an operator asks for the version itself.  Versions are compared by
`Version.precedence`, so `=1` accepts `1-r0`; `=` with a star accepts every version whose text goes
on from the constraint's.  A blocker accepts nothing, and USE requirements are not considered.  The
slot of the candidate is asked for last, and only if the atom names one (`accepts_eq_acceptsM`).
-/

namespace PackageCatalog

namespace VersionConstraint

/-! ## Versions -/

def accepts (c : VersionConstraint) (candidate : Version) : Bool :=
  let wanted := c.version
  match c.operator.getD .equal with
  | .equal =>
    if c.glob then wanted.render.isPrefixOf candidate.render
    else candidate.precedence wanted == .eq
  | .less => candidate.precedence wanted == .lt
  | .lessOrEqual => candidate.precedence wanted != .gt
  | .greaterOrEqual => candidate.precedence wanted != .lt
  | .greater => candidate.precedence wanted == .gt
  | .approximate => candidate.baseOrder wanted == .eq

end VersionConstraint

/-- A slot without a sub-slot accepts every sub-slot. -/
def Slot.accepts (wanted actual : Slot) : Bool :=
  wanted.slot == actual.slot && (wanted.subslot.isNone || wanted.subslot == actual.subslot)

namespace Atom

/-! ## Packages -/

/-- The package an atom names, if category and package are names. -/
def qualifiedName (a : Atom) : Except Error QualifiedName :=
  QualifiedName.parse a.name

/-- The slot an atom names. -/
def wantedSlot (a : Atom) : Option Slot := a.slot.bind (·.slot)

def needsSlot (a : Atom) : Bool := a.wantedSlot.isSome

/-- Whether an atom accepts a package version as far as its slot is not concerned. -/
def acceptsApartFromSlot (a : Atom) (n : QualifiedName) (v : Version) (repository : String) :
    Bool :=
  a.blocker.isNone && a.name == n.text && a.version.all (·.accepts v) &&
    a.repository.all (· == repository)

/-- Whether an atom accepts a package version of a repository. -/
def accepts (a : Atom) (n : QualifiedName) (v : Version) (repository : String)
    (slot : Option Slot) : Bool :=
  a.acceptsApartFromSlot n v repository &&
    a.wantedSlot.all fun wanted => slot.any wanted.accepts

/-- `accepts`, where finding the slot of the candidate is an action. -/
def acceptsM {m : Type → Type} [Monad m] (a : Atom) (n : QualifiedName) (v : Version)
    (repository : String) (slot : m (Option Slot)) : m Bool :=
  if a.acceptsApartFromSlot n v repository then
    match a.wantedSlot with
    | none => pure true
    | some wanted => do
      let actual ← slot
      return actual.any wanted.accepts
  else pure false

/-! ## Lemmas -/

theorem accepts_eq_acceptsM (a : Atom) (n : QualifiedName) (v : Version) (repository : String)
    (slot : Option Slot) :
    a.accepts n v repository slot = Id.run (a.acceptsM n v repository (pure slot)) := by
  unfold accepts acceptsM
  cases a.acceptsApartFromSlot n v repository with
  | false => rfl
  | true => cases a.wantedSlot <;> rfl

end Atom

end PackageCatalog
