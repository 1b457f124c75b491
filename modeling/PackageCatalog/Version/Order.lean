import PackageCatalog.Version.Basic

/-!
# The order of versions

Three orders, each refining the one before it: `Version.baseOrder` leaves the revision out,
`Version.precedence` is the order of releases, and `Version.order` settles its ties by the text, so
that only equal versions tie (`1` comes before `1.0`, and `1` before `1-r0`).
-/

namespace PackageCatalog.Version

/-! ## Algorithm -/

/-- Digit strings as whole numbers. -/
def compareValues (a b : List Char) : Ordering :=
  compare (digitsValue a) (digitsValue b)

def startsWithZero (ds : List Char) : Bool :=
  ds.head? == some '0'

/-- Without the zeros at the end, as a decimal fraction is written. -/
def dropTrailingZeros (ds : List Char) : List Char :=
  (ds.reverse.dropWhile (· == '0')).reverse

/-- Numbers after the first period: with a leading zero on either side both are decimal fractions,
otherwise whole numbers. -/
def compareMinor (a b : List Char) : Ordering :=
  if startsWithZero a || startsWithZero b then
    compare (dropTrailingZeros a) (dropTrailingZeros b)
  else compareValues a b

/-- Pairwise up to the first difference; of two lists one of which continues the other, the shorter
comes first. -/
def compareMinors : List Numeral → List Numeral → Ordering
  | [], [] => .eq
  | [], _ :: _ => .lt
  | _ :: _, [] => .gt
  | a :: as, b :: bs => (compareMinor a.val b.val).then (compareMinors as bs)

def compareLetters : Option VersionLetter → Option VersionLetter → Ordering
  | none, none => .eq
  | none, some _ => .lt
  | some _, none => .gt
  | some a, some b => compare a.val b.val

def compareSuffix (a b : VersionSuffix) : Ordering :=
  (compare a.kind.rank b.kind.rank).then (compareValues a.number.val b.number.val)

/-- Where one list continues the other, a further `_p` comes after the end and any other suffix
before it. -/
def compareSuffixes : List VersionSuffix → List VersionSuffix → Ordering
  | [], [] => .eq
  | [], b :: _ => if b.kind = .patch then .lt else .gt
  | a :: _, [] => if a.kind = .patch then .gt else .lt
  | a :: as, b :: bs => (compareSuffix a b).then (compareSuffixes as bs)

/-- No revision is revision zero. -/
def revisionDigits (v : Version) : List Char :=
  (v.revision.map Subtype.val).getD []

/-- The order without revisions. -/
def baseOrder (a b : Version) : Ordering :=
  (compareValues a.major.val b.major.val).then <|
    (compareMinors a.minors b.minors).then <|
    (compareLetters a.letter b.letter).then <|
    compareSuffixes a.suffixes b.suffixes

/-- The order of releases; versions that differ in writing alone tie. -/
def precedence (a b : Version) : Ordering :=
  (baseOrder a b).then (compareValues a.revisionDigits b.revisionDigits)

/-- The order of releases, ties settled by the text. -/
def order (a b : Version) : Ordering :=
  (precedence a b).then (compare a.text b.text)

instance : Ord Version := ⟨order⟩

/-! ## Lemmas -/

theorem order_eq_precedence {a b : Version} (h : precedence a b ≠ .eq) :
    order a b = precedence a b := by
  unfold order
  cases hp : precedence a b with
  | eq => exact absurd hp h
  | lt => rfl
  | gt => rfl

end PackageCatalog.Version
