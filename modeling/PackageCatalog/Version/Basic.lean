/-!
# Package versions

A version is a list of numbers joined by periods, an optional letter, suffixes such as `_rc1`, and
an optional revision such as `-r2`.  The digits are kept as written: `0.04` and `0.4` are two
versions, and `Version.text` gives back exactly the text that was read, so a path built from a
version names the entry it was read from.
-/

namespace PackageCatalog

/-- ASCII digits, possibly none. -/
abbrev Digits := { ds : List Char // ∀ c ∈ ds, c.isDigit = true }

/-- At least one ASCII digit. -/
abbrev Numeral := { ds : List Char // ds ≠ [] ∧ ∀ c ∈ ds, c.isDigit = true }

/-- A letter from `a` to `z`. -/
abbrev VersionLetter := { c : Char // c.isLower = true }

/-- The number a digit string stands for; no digit stands for zero. -/
def digitsValue (ds : List Char) : Nat :=
  Nat.ofDigitChars 10 ds 0

/-- The decimal digits of a number, without leading zeros. -/
def Numeral.ofNat (n : Nat) : Numeral :=
  ⟨Nat.toDigits 10 n, Nat.toDigits_ne_nil,
    fun _ h => Nat.isDigit_of_mem_toDigits (by decide) (by decide) h⟩

theorem digitsValue_ofNat (n : Nat) : digitsValue (Numeral.ofNat n).val = n :=
  Nat.ofDigitChars_toDigits (by decide) (by decide)

/-- The kinds of suffix, in ascending order. -/
inductive SuffixKind where
  | alpha
  | beta
  | pre
  | rc
  | patch
  deriving DecidableEq

namespace SuffixKind

def text : SuffixKind → String
  | .alpha => "alpha"
  | .beta => "beta"
  | .pre => "pre"
  | .rc => "rc"
  | .patch => "p"

def rank : SuffixKind → Nat
  | .alpha => 0
  | .beta => 1
  | .pre => 2
  | .rc => 3
  | .patch => 4

end SuffixKind

structure VersionSuffix where
  kind : SuffixKind
  number : Digits
  deriving DecidableEq

structure Version where
  major : Numeral
  minors : List Numeral
  letter : Option VersionLetter
  suffixes : List VersionSuffix
  revision : Option Numeral
  deriving DecidableEq

namespace Version

def renderMinors (minors : List Numeral) : List Char :=
  minors.flatMap fun n => '.' :: n.val

def renderLetter : Option VersionLetter → List Char
  | none => []
  | some c => [c.val]

def renderSuffixes (suffixes : List VersionSuffix) : List Char :=
  suffixes.flatMap fun s => '_' :: (s.kind.text.toList ++ s.number.val)

def renderRevision : Option Numeral → List Char
  | none => []
  | some n => '-' :: 'r' :: n.val

/-- The written form. -/
def render (v : Version) : List Char :=
  v.major.val ++ renderMinors v.minors ++ renderLetter v.letter ++ renderSuffixes v.suffixes ++
    renderRevision v.revision

def text (v : Version) : String :=
  String.ofList v.render

instance : ToString Version := ⟨text⟩

theorem render_ne_nil (v : Version) : v.render ≠ [] := by
  have := v.major.property.1
  simp [render, this]

end Version

end PackageCatalog
