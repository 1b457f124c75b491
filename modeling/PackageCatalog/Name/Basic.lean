import PackageCatalog.Text.Blank
import PackageCatalog.Version.Parser

/-!
# Names

Categories, packages, repositories and USE flags each have names of their own: a first character
from one class and the others from a wider one, all of them ASCII.  A package name must not end in a
hyphen and a version, so that `name-version` can be taken apart again.  Each type holds a text
together with the fact that it is a name of the kind; `parse` reads one, and `QualifiedName` pairs a
category with a package.
-/

namespace PackageCatalog

/-! ## Well-formed texts -/

def isNameStart (c : Char) : Bool := c.isAlphanum || c == '_'

/-- A first character from `first`, and then only characters from `others`. -/
def isNameOf (first others : Char → Bool) : List Char → Bool
  | [] => false
  | c :: r => first c && r.all others

def isCategoryText (s : String) : Bool :=
  isNameOf isNameStart (fun c => c.isAlphanum || c ∈ ['+', '_', '.', '-']) s.toList

/-- Whether what follows some hyphen is a version. -/
def endsInVersion : List Char → Bool
  | [] => false
  | c :: r => (c == '-' && (Version.ofChars? r).isSome) || endsInVersion r

def isPackageText (s : String) : Bool :=
  isNameOf isNameStart (fun c => c.isAlphanum || c ∈ ['+', '_', '-']) s.toList &&
    !endsInVersion s.toList

def isRepositoryText (s : String) : Bool :=
  isNameOf isNameStart (fun c => c.isAlphanum || c ∈ ['_', '-']) s.toList

def isUseFlagText (s : String) : Bool :=
  isNameOf Char.isAlphanum (fun c => c.isAlphanum || c ∈ ['+', '_', '@', '-']) s.toList

/-! ## The kinds of name -/

structure Category where
  text : String
  valid : isCategoryText text = true
  deriving DecidableEq

structure PackageName where
  text : String
  valid : isPackageText text = true
  deriving DecidableEq

structure RepositoryName where
  text : String
  valid : isRepositoryText text = true
  deriving DecidableEq

structure UseFlag where
  text : String
  valid : isUseFlagText text = true
  deriving DecidableEq

instance : Ord Category := ⟨fun a b => compare a.text b.text⟩
instance : Ord PackageName := ⟨fun a b => compare a.text b.text⟩
instance : Ord UseFlag := ⟨fun a b => compare a.text b.text⟩

namespace Category

def parse (s : String) : Except Error Category :=
  if h : isCategoryText s = true then .ok ⟨s, h⟩ else .error (.invalidCategory s)

theorem parse_eq_ok_iff {s : String} {c : Category} : parse s = .ok c ↔ c.text = s := by
  unfold parse
  constructor
  · intro h
    split at h
    · cases h; rfl
    · cases h
  · rintro rfl
    rw [dif_pos c.valid]

end Category

namespace PackageName

def parse (s : String) : Except Error PackageName :=
  if h : isPackageText s = true then .ok ⟨s, h⟩ else .error (.invalidPackageName s)

theorem parse_eq_ok_iff {s : String} {p : PackageName} : parse s = .ok p ↔ p.text = s := by
  unfold parse
  constructor
  · intro h
    split at h
    · cases h; rfl
    · cases h
  · rintro rfl
    rw [dif_pos p.valid]

end PackageName

namespace RepositoryName

def parse (s : String) : Except Error RepositoryName :=
  if h : isRepositoryText s = true then .ok ⟨s, h⟩ else .error (.invalidRepositoryName s)

theorem parse_eq_ok_iff {s : String} {r : RepositoryName} : parse s = .ok r ↔ r.text = s := by
  unfold parse
  constructor
  · intro h
    split at h
    · cases h; rfl
    · cases h
  · rintro rfl
    rw [dif_pos r.valid]

end RepositoryName

namespace UseFlag

def parse (s : String) : Except Error UseFlag :=
  if h : isUseFlagText s = true then .ok ⟨s, h⟩ else .error (.invalidUseFlag s)

theorem parse_eq_ok_iff {s : String} {f : UseFlag} : parse s = .ok f ↔ f.text = s := by
  unfold parse
  constructor
  · intro h
    split at h
    · cases h; rfl
    · cases h
  · rintro rfl
    rw [dif_pos f.valid]

end UseFlag

/-! ## Qualified names -/

/-- A package within its category, written `category/package`. -/
structure QualifiedName where
  category : Category
  package : PackageName
  deriving DecidableEq

namespace QualifiedName

def text (n : QualifiedName) : String := n.category.text ++ "/" ++ n.package.text

instance : ToString QualifiedName := ⟨text⟩

/-- By category, then by package. -/
instance : Ord QualifiedName :=
  ⟨fun a b => (compare a.category b.category).then (compare a.package b.package)⟩

/-- The first slash separates; a text without one is no package name. -/
def parse (s : String) : Except Error QualifiedName :=
  match Text.cut? '/' s with
  | none => .error (.invalidPackageName s)
  | some (category, package) => do
    let category ← Category.parse category
    let package ← PackageName.parse package
    return ⟨category, package⟩

end QualifiedName

end PackageCatalog
