import PackageCatalog.Proofs.Ascending
import PackageCatalog.Proofs.Version.Order

/-!
# The order of versions is transitive

Each part of a version is compared by keys that are ordered transitively:

    a number after the first period   its fraction, if a zero leads, else `1`; then its value
    a list of such numbers            lexicographically
    a list of suffixes                lexicographically, an end mark between `_rc` and `_p`

A list of versions that is sorted by `Version.order` can therefore be searched by halving.
-/

namespace PackageCatalog

namespace Version

/-! ## Numbers after the first period -/

theorem dropTrailingZeros_cons {c : Char} (hc : c ≠ '0') (cs : List Char) :
    ∃ r, dropTrailingZeros (c :: cs) = c :: r := by
  have hne : dropTrailingZeros (c :: cs) ≠ [] := fun hnil =>
    hc (dropTrailingZeros_eq_nil_iff.1 hnil c List.mem_cons_self)
  obtain ⟨d, r, hd⟩ := List.exists_cons_of_ne_nil hne
  obtain ⟨rest, hrest⟩ := dropTrailingZeros_isPrefix (c :: cs)
  rw [hd, List.cons_append] at hrest
  exact ⟨r, by rw [hd, (List.cons.inj hrest).1]⟩

theorem dropTrailingZeros_of_startsWithZero {ds : List Char} (h : startsWithZero ds = true) :
    dropTrailingZeros ds = [] ∨ ∃ r, dropTrailingZeros ds = '0' :: r := by
  cases hd : dropTrailingZeros ds with
  | nil => exact .inl rfl
  | cons c r =>
    obtain ⟨rest, hrest⟩ := dropTrailingZeros_isPrefix ds
    rw [hd] at hrest
    rw [← hrest] at h
    obtain rfl : c = '0' := by simpa [startsWithZero] using h
    exact .inr ⟨r, rfl⟩

/-- A fraction below one tenth comes before anything with another first digit. -/
theorem compare_fraction {ds : List Char} (h : startsWithZero ds = true) {c : Char}
    (hdigit : c.isDigit = true) (hc : c ≠ '0') (cs : List Char) :
    compare (dropTrailingZeros ds) (c :: cs) = .lt := by
  rcases dropTrailingZeros_of_startsWithZero h with hnil | ⟨r, hr⟩
  · rw [hnil]
    rfl
  · have hlt : compare '0' c = .lt := by
      have hbound : 48 ≤ c.toNat := by
        simp only [Char.isDigit, Bool.and_eq_true, decide_eq_true_eq] at hdigit
        exact hdigit.1
      have hne : c.toNat ≠ 48 := fun h => hc (Char.toNat_inj.1 h)
      have habove : '0' < c := UInt32.lt_iff_toNat_lt.2 (show 48 < c.toNat by omega)
      exact if_pos habove
    rw [hr, List.compare_cons_cons, hlt]
    rfl

/-- What a number is compared by first: the fraction, if a zero leads. -/
def fractionKey (n : Numeral) : List Char :=
  if startsWithZero n.val then dropTrailingZeros n.val else ['1']

/-- What a number is compared by next: the value, if no zero leads. -/
def wholeKey (n : Numeral) : Nat :=
  if startsWithZero n.val then 0 else digitsValue n.val

theorem fractionKey_lt {a b : Numeral} (ha : startsWithZero a.val = true)
    (hb : startsWithZero b.val = false) :
    compare (fractionKey a) (fractionKey b) = .lt ∧
      compare (dropTrailingZeros a.val) (dropTrailingZeros b.val) = .lt := by
  obtain ⟨ds, hne, hds⟩ := b
  obtain ⟨c, cs, rfl⟩ := List.exists_cons_of_ne_nil hne
  have hzero : c ≠ '0' := by
    rintro rfl
    cases hb
  obtain ⟨r, hr⟩ := dropTrailingZeros_cons hzero cs
  constructor
  · rw [fractionKey, fractionKey, if_pos ha, hb, if_neg (by decide)]
    exact compare_fraction ha (by decide) (by decide) []
  · rw [hr]
    exact compare_fraction ha (hds c List.mem_cons_self) hzero r

theorem compareMinor_eq (a b : Numeral) :
    compareMinor a.val b.val = compareLex (compareOn fractionKey) (compareOn wholeKey) a b := by
  show _ = (compare (fractionKey a) (fractionKey b)).then (compare (wholeKey a) (wholeKey b))
  cases ha : startsWithZero a.val <;> cases hb : startsWithZero b.val
  case false.false => simp [compareMinor, compareValues, fractionKey, wholeKey, ha, hb]
  case true.true => simp [compareMinor, fractionKey, wholeKey, ha, hb]
  case true.false =>
    obtain ⟨hkey, hdrop⟩ := fractionKey_lt ha hb
    rw [compareMinor, ha, Bool.true_or, if_pos rfl, hdrop, hkey]
    rfl
  case false.true =>
    obtain ⟨hkey, hdrop⟩ := fractionKey_lt hb ha
    rw [compareMinor, hb, Bool.or_true, if_pos rfl, Std.OrientedOrd.eq_swap, hdrop,
      Std.OrientedOrd.eq_swap (a := fractionKey a), hkey]
    rfl

theorem compareMinors_eq (xs ys : List Numeral) :
    compareMinors xs ys =
      List.compareLex (compareLex (compareOn fractionKey) (compareOn wholeKey)) xs ys := by
  induction xs generalizing ys with
  | nil => cases ys <;> rfl
  | cons x xs ih =>
    cases ys with
    | nil => rfl
    | cons y ys => rw [compareMinors, List.compareLex_cons_cons, compareMinor_eq, ih]

/-! ## Letters and suffixes -/

theorem compareLetters_eq (a b : Option VersionLetter) :
    compareLetters a b = compare (a.map Subtype.val) (b.map Subtype.val) := by
  cases a <;> cases b <;> rfl

/-- The place of a kind of suffix among the kinds and the end of the suffixes, which has place 4. -/
def suffixPlace : SuffixKind → Nat
  | .alpha => 0
  | .beta => 1
  | .pre => 2
  | .rc => 3
  | .patch => 5

theorem compare_rank (j k : SuffixKind) :
    compare j.rank k.rank = compare (suffixPlace j) (suffixPlace k) := by
  cases j <;> cases k <;> rfl

theorem compare_end (k : SuffixKind) :
    compare 4 (suffixPlace k) = if k = .patch then .lt else .gt := by
  cases k <;> rfl

/-- A suffix, or the end of the suffixes, by place and number. -/
def suffixKey : Option VersionSuffix → Nat × Nat
  | none => (4, 0)
  | some s => (suffixPlace s.kind, digitsValue s.number.val)

def compareEnded (a b : Option VersionSuffix) : Ordering :=
  (compare (suffixKey a).1 (suffixKey b).1).then (compare (suffixKey a).2 (suffixKey b).2)

/-- The suffixes and then the end. -/
def ended : List VersionSuffix → List (Option VersionSuffix)
  | [] => [none]
  | s :: ss => some s :: ended ss

theorem compareSuffix_eq (a b : VersionSuffix) :
    compareSuffix a b = compareEnded (some a) (some b) := by
  rw [compareSuffix, compare_rank]
  rfl

theorem compareEnded_none (s : VersionSuffix) :
    compareEnded none (some s) = if s.kind = .patch then .lt else .gt := by
  show (compare 4 (suffixPlace s.kind)).then _ = _
  rw [compare_end]
  split <;> rfl

theorem compareEnded_some (s : VersionSuffix) :
    compareEnded (some s) none = if s.kind = .patch then .gt else .lt := by
  show (compare (suffixPlace s.kind) 4).then _ = _
  rw [Std.OrientedOrd.eq_swap, compare_end]
  split <;> rfl

theorem compareSuffixes_eq (xs ys : List VersionSuffix) :
    compareSuffixes xs ys = List.compareLex compareEnded (ended xs) (ended ys) := by
  induction xs generalizing ys with
  | nil =>
    cases ys with
    | nil => rfl
    | cons y ys =>
      rw [compareSuffixes, ended, ended, List.compareLex_cons_cons, compareEnded_none]
      split <;> rfl
  | cons x xs ih =>
    cases ys with
    | nil =>
      rw [compareSuffixes, ended, ended, List.compareLex_cons_cons, compareEnded_some]
      split <;> rfl
    | cons y ys =>
      rw [compareSuffixes, ended, ended, List.compareLex_cons_cons, compareSuffix_eq, ih]

/-! ## Versions -/

instance : Std.TransCmp compareEnded :=
  inferInstanceAs (Std.TransCmp (compareLex
    (compareOn fun a => (suffixKey a).1) (compareOn fun a => (suffixKey a).2)))

instance : Std.TransCmp compareMinors := by
  rw [show compareMinors = _ from funext fun xs => funext fun ys => compareMinors_eq xs ys]
  infer_instance

instance : Std.TransCmp compareLetters := by
  rw [show compareLetters = compareOn (Option.map Subtype.val) from
    funext fun a => funext fun b => compareLetters_eq a b]
  infer_instance

section

variable {α β : Type}

/-- Elements are ordered as their values of `f` are. -/
theorem transCmp_comap (cmp : β → β → Ordering) [Std.TransCmp cmp] (f : α → β) :
    Std.TransCmp fun a b => cmp (f a) (f b) where
  eq_swap {a b} := show cmp (f a) (f b) = (cmp (f b) (f a)).swap from Std.OrientedCmp.eq_swap
  isLE_trans {a _ c} h k := show (cmp (f a) (f c)).isLE from Std.TransCmp.isLE_trans h k

end

instance : Std.TransCmp compareSuffixes := by
  rw [show compareSuffixes = fun xs ys => List.compareLex compareEnded (ended xs) (ended ys) from
    funext fun xs => funext fun ys => compareSuffixes_eq xs ys]
  exact transCmp_comap _ ended

/-- Each part of a version is compared by a transitive order, and so are all but the revision. -/
instance : Std.TransCmp baseOrder := by
  have := transCmp_comap compareMinors Version.minors
  have := transCmp_comap compareLetters Version.letter
  have := transCmp_comap compareSuffixes Version.suffixes
  exact inferInstanceAs (Std.TransCmp <|
    compareLex (compareOn fun v : Version => digitsValue v.major.val) <|
    compareLex (fun a b => compareMinors a.minors b.minors) <|
    compareLex (fun a b => compareLetters a.letter b.letter)
      fun a b => compareSuffixes a.suffixes b.suffixes)

instance : Std.TransCmp precedence :=
  inferInstanceAs (Std.TransCmp <|
    compareLex baseOrder (compareOn fun v => digitsValue v.revisionDigits))

instance : Std.TransOrd Version :=
  inferInstanceAs (Std.TransCmp <| compareLex precedence (compareOn Version.text))

end Version

/-! ## Names -/

instance : Std.TransOrd QualifiedName :=
  inferInstanceAs (Std.TransCmp
    (compareLex (compareOn QualifiedName.category) (compareOn QualifiedName.package)))

end PackageCatalog
