import PackageCatalog.Version.Basic

/-!
# Dependency specifications

An atom names a package and may restrict its version, slot, USE flags and repository:

    >=dev-lang/ocaml-4.14:0/4.14=[emacs,-doc]::main

The version of an atom is a `VersionConstraint`: its numbers are whole numbers, written without
leading zeros.  `Atom.text` is the written form of an atom.
-/

namespace PackageCatalog

/-! ## Version constraints -/

inductive Operator where
  | less
  | lessOrEqual
  | equal
  /-- The same version in any revision. -/
  | approximate
  | greaterOrEqual
  | greater
  deriving DecidableEq

def Operator.text : Operator → String
  | .less => "<"
  | .lessOrEqual => "<="
  | .equal => "="
  | .approximate => "~"
  | .greaterOrEqual => ">="
  | .greater => ">"

structure ConstraintSuffix where
  kind : SuffixKind
  number : Option Nat
  deriving DecidableEq

structure VersionConstraint where
  operator : Option Operator
  major : Nat
  minors : List Nat
  letter : Option VersionLetter
  suffixes : List ConstraintSuffix
  /-- Revision zero is the same as none, and is not written. -/
  revision : Nat
  /-- Written as a star at the end: any continuation of the version is meant. -/
  glob : Bool
  deriving DecidableEq

namespace VersionConstraint

/-- Numbers are kept in words of 64 bits. -/
def numberLimit : Nat := UInt64.size

def boundedValue? (ds : List Char) : Option Nat :=
  if digitsValue ds < numberLimit then some (digitsValue ds) else none

def suffixOf? (s : VersionSuffix) : Option ConstraintSuffix :=
  if s.number.val = [] then some ⟨s.kind, none⟩
  else (boundedValue? s.number.val).map fun n => ⟨s.kind, some n⟩

/-- The constraint a version is, unless one of its numbers is too large. -/
def ofVersion? (v : Version) (glob : Bool) : Option VersionConstraint := do
  let major ← boundedValue? v.major.val
  let minors ← v.minors.mapM fun n => boundedValue? n.val
  let suffixes ← v.suffixes.mapM suffixOf?
  let revision ← match v.revision with
    | none => some 0
    | some n => boundedValue? n.val
  return ⟨none, major, minors, v.letter, suffixes, revision, glob⟩

def suffixVersion (s : ConstraintSuffix) : VersionSuffix :=
  ⟨s.kind, match s.number with
    | none => ⟨[], by simp⟩
    | some n => ⟨(Numeral.ofNat n).val, (Numeral.ofNat n).property.2⟩⟩

/-- The version a constraint names, without operator and star. -/
def version (c : VersionConstraint) : Version where
  major := Numeral.ofNat c.major
  minors := c.minors.map Numeral.ofNat
  letter := c.letter
  suffixes := c.suffixes.map suffixVersion
  revision := if c.revision = 0 then none else some (Numeral.ofNat c.revision)

/-- The text of the version without its revision. -/
def baseText (c : VersionConstraint) : String :=
  { c.version with revision := none }.text

def revisionText (c : VersionConstraint) : String :=
  String.ofList (Version.renderRevision c.version.revision)

end VersionConstraint

/-! ## Slots -/

structure Slot where
  slot : String
  subslot : Option String
  deriving DecidableEq

def Slot.text (s : Slot) : String :=
  match s.subslot with
  | some subslot => s.slot ++ "/" ++ subslot
  | none => s.slot

inductive SlotOperator where
  /-- Written `=`. -/
  | rebuild
  /-- Written `*`. -/
  | any
  deriving DecidableEq

def SlotOperator.text : SlotOperator → String
  | .rebuild => "="
  | .any => "*"

structure SlotRequirement where
  slot : Option Slot
  operator : Option SlotOperator
  deriving DecidableEq

def SlotRequirement.text (r : SlotRequirement) : String :=
  (r.slot.map Slot.text).getD "" ++ (r.operator.map SlotOperator.text).getD ""

/-! ## USE requirements -/

inductive UseCondition where
  /-- Written `flag`. -/
  | enabled
  /-- Written `-flag`. -/
  | disabled
  /-- Written `flag=`. -/
  | same
  /-- Written `!flag=`. -/
  | opposite
  /-- Written `flag?`. -/
  | ifEnabled
  /-- Written `!flag?`. -/
  | ifDisabled
  deriving DecidableEq

structure UseRequirement where
  condition : UseCondition
  flag : String
  /-- What a package without the flag counts as: `(+)` or `(-)`. -/
  default : Option Bool
  deriving DecidableEq

def UseRequirement.text (u : UseRequirement) : String :=
  let flag := u.flag ++ match u.default with
    | none => ""
    | some true => "(+)"
    | some false => "(-)"
  match u.condition with
  | .enabled => flag
  | .disabled => "-" ++ flag
  | .same => flag ++ "="
  | .opposite => "!" ++ flag ++ "="
  | .ifEnabled => flag ++ "?"
  | .ifDisabled => "!" ++ flag ++ "?"

/-! ## Atoms -/

inductive Blocker where
  | weak
  | strong
  deriving DecidableEq

def Blocker.text : Blocker → String
  | .weak => "!"
  | .strong => "!!"

structure Atom where
  blocker : Option Blocker
  category : String
  package : String
  version : Option VersionConstraint
  slot : Option SlotRequirement
  uses : Option (List UseRequirement)
  repository : Option String
  deriving DecidableEq

namespace Atom

/-- The package as written: `category/package`. -/
def name (a : Atom) : String := a.category ++ "/" ++ a.package

def operator (a : Atom) : Option Operator := a.version.bind (·.operator)

/-- The written form.  A star after the version is left out, and so is an empty list of USE
requirements. -/
def text (a : Atom) : String :=
  (a.blocker.map Blocker.text).getD "" ++
  (a.operator.map Operator.text).getD "" ++
  a.name ++
  (a.version.map fun c => "-" ++ c.version.text).getD "" ++
  (a.slot.map fun r => ":" ++ r.text).getD "" ++
  (match a.uses.getD [] with
    | [] => ""
    | uses => "[" ++ ",".intercalate (uses.map UseRequirement.text) ++ "]") ++
  (a.repository.map fun r => "::" ++ r).getD ""

instance : ToString Atom := ⟨text⟩

end Atom

end PackageCatalog
