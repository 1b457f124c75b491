import Mathlib.Algebra.Ring.Nat
import PackageCatalog.Proofs.Version.Transitive

/-!
# The laws of the orders of versions

Of the three orders `baseOrder`, `precedence` and `order` each is a lawful comparison and refines
the one before it; the last settles every tie, for two versions are equal if their texts are
(`orders_lawful`).

Digits that are compared by value may be of any length.  Without leading zeros, the longer of two
numbers is the greater, and the text decides between numbers of one length:

    compareValues ds es =
      (compare (dropLeadingZeros ds).length (dropLeadingZeros es).length).then
        (compare (dropLeadingZeros ds) (dropLeadingZeros es))             (compareValues_eq)
-/

namespace PackageCatalog.Version

/-! ## Values of digits of any length -/

def dropLeadingZeros (ds : List Char) : List Char :=
  ds.dropWhile (· == '0')

theorem digitsValue_dropLeadingZeros (ds : List Char) :
    digitsValue (dropLeadingZeros ds) = digitsValue ds := by
  induction ds with
  | nil => rfl
  | cons c cs ih =>
    by_cases hzero : c = '0'
    · subst hzero
      rw [digitsValue_cons_zero, ← ih]
      rfl
    · have hkept : dropLeadingZeros (c :: cs) = c :: cs := by
        simp [dropLeadingZeros, hzero]
      rw [hkept]

theorem dropLeadingZeros_cases (ds : List Char) :
    dropLeadingZeros ds = [] ∨ ∃ c cs, dropLeadingZeros ds = c :: cs ∧ c ≠ '0' := by
  cases hd : dropLeadingZeros ds with
  | nil => exact .inl rfl
  | cons c cs =>
    refine .inr ⟨c, cs, rfl, ?_⟩
    have hhead := List.head?_dropWhile_not (· == '0') ds
    rw [show ds.dropWhile (· == '0') = c :: cs from hd] at hhead
    simpa using hhead

theorem isDigit_of_mem_dropLeadingZeros {ds : List Char} (hds : ∀ c ∈ ds, c.isDigit = true) :
    ∀ c ∈ dropLeadingZeros ds, c.isDigit = true := by
  intro c hc
  exact hds c ((List.dropWhile_suffix _).subset hc)

/-- A further digit counts only between numbers that were equal before it. -/
theorem compare_digit {c d : Char} (hc : c.isDigit = true) (hd : d.isDigit = true) (m n : Nat) :
    compare (10 * m + (c.toNat - '0'.toNat)) (10 * n + (d.toNat - '0'.toNat)) =
      (compare m n).then (compare c d) := by
  have hc := toNat_of_isDigit hc
  have hd := toNat_of_isDigit hd
  have hzero : '0'.toNat = 48 := rfl
  have hlt : ∀ {a b : Char}, a.toNat < b.toNat → compare a b = .lt := by
    intro a b h
    have : a < b := UInt32.lt_iff_toNat_lt.2 h
    exact if_pos this
  rw [hzero]
  rcases Nat.lt_trichotomy m n with h | h | h
  · rw [Nat.compare_eq_lt.2 h, Nat.compare_eq_lt.2 (by omega)]
    rfl
  · subst h
    rw [Nat.compare_eq_eq.2 rfl, Ordering.eq_then]
    rcases Nat.lt_trichotomy c.toNat d.toNat with h | h | h
    · rw [hlt h, Nat.compare_eq_lt.2 (by omega)]
    · obtain rfl := Char.toNat_inj.1 h
      rw [Std.ReflOrd.compare_self, Std.ReflOrd.compare_self]
    · rw [Std.OrientedOrd.eq_swap (a := c), hlt h, Nat.compare_eq_gt.2 (by omega)]
      rfl
  · rw [Nat.compare_eq_gt.2 h, Nat.compare_eq_gt.2 (by omega)]
    rfl

/-- Of as many digits the text decides, behind what the numbers were before. -/
theorem compare_ofDigitChars {ds es : List Char} (hds : ∀ c ∈ ds, c.isDigit = true)
    (hes : ∀ c ∈ es, c.isDigit = true) (hlength : ds.length = es.length) (m n : Nat) :
    compare (Nat.ofDigitChars 10 ds m) (Nat.ofDigitChars 10 es n) =
      (compare m n).then (compare ds es) := by
  induction ds generalizing es m n with
  | nil =>
    obtain rfl := List.length_eq_zero_iff.1 hlength.symm
    rw [Nat.ofDigitChars_nil, Nat.ofDigitChars_nil, Std.ReflOrd.compare_self, Ordering.then_eq]
  | cons c cs ih =>
    obtain ⟨d, ds, rfl⟩ := List.exists_cons_of_length_eq_add_one hlength.symm
    obtain ⟨hc, hcs⟩ := List.forall_mem_cons.1 hds
    obtain ⟨hd, hds⟩ := List.forall_mem_cons.1 hes
    rw [Nat.ofDigitChars_cons, Nat.ofDigitChars_cons,
      ih hcs hds (Nat.succ.inj hlength), compare_digit hc hd, List.compare_cons_cons,
      Ordering.then_assoc]

theorem digitsValue_lt {ds : List Char} (hds : ∀ c ∈ ds, c.isDigit = true) :
    digitsValue ds < 10 ^ ds.length := by
  induction ds with
  | nil => exact Nat.one_pos
  | cons c cs ih =>
    obtain ⟨hc, hcs⟩ := List.forall_mem_cons.1 hds
    have hc := toNat_of_isDigit hc
    have hzero : '0'.toNat = 48 := rfl
    have hrest := ih hcs
    rw [digitsValue, Nat.ofDigitChars_cons, Nat.ofDigitChars_eq_ofDigitChars_zero,
      List.length_cons, Nat.pow_succ, hzero]
    rw [digitsValue] at hrest
    have hfirst : 10 ^ cs.length * (10 * 0 + (c.toNat - 48)) ≤ 10 ^ cs.length * 9 :=
      Nat.mul_le_mul_left _ (by omega)
    omega

theorem le_digitsValue {c : Char} {cs : List Char} (hc : c.isDigit = true) (hzero : c ≠ '0') :
    10 ^ cs.length ≤ digitsValue (c :: cs) := by
  have hc := toNat_of_isDigit hc
  have hne : c.toNat ≠ 48 := fun h => hzero (Char.toNat_inj.1 h)
  have hfirst : 10 ^ cs.length * 1 ≤ 10 ^ cs.length * (10 * 0 + (c.toNat - '0'.toNat)) :=
    Nat.mul_le_mul_left _ (by show 1 ≤ 10 * 0 + (c.toNat - 48); omega)
  rw [digitsValue, Nat.ofDigitChars_cons, Nat.ofDigitChars_eq_ofDigitChars_zero]
  omega

/-- Of two numbers without leading zeros the one with more digits is the greater. -/
theorem digitsValue_lt_of_length_lt {ds es : List Char} (hds : ∀ c ∈ ds, c.isDigit = true)
    (hes : ∀ c ∈ es, c.isDigit = true)
    (hlength : (dropLeadingZeros ds).length < (dropLeadingZeros es).length) :
    digitsValue (dropLeadingZeros ds) < digitsValue (dropLeadingZeros es) := by
  have hlt := digitsValue_lt (isDigit_of_mem_dropLeadingZeros hds)
  have hdigits := isDigit_of_mem_dropLeadingZeros hes
  rcases dropLeadingZeros_cases es with hnil | ⟨c, cs, hcs, hc⟩
  · rw [hnil] at hlength
    exact absurd hlength (Nat.not_lt_zero _)
  · rw [hcs] at hdigits hlength ⊢
    have hle : 10 ^ cs.length ≤ digitsValue (c :: cs) :=
      le_digitsValue (hdigits c List.mem_cons_self) hc
    have hpow : 10 ^ (dropLeadingZeros ds).length ≤ 10 ^ cs.length :=
      Nat.pow_le_pow_right (by decide) (Nat.le_of_lt_succ hlength)
    omega

theorem compareValues_eq {ds es : List Char} (hds : ∀ c ∈ ds, c.isDigit = true)
    (hes : ∀ c ∈ es, c.isDigit = true) :
    compareValues ds es =
      (compare (dropLeadingZeros ds).length (dropLeadingZeros es).length).then
        (compare (dropLeadingZeros ds) (dropLeadingZeros es)) := by
  rw [compareValues, ← digitsValue_dropLeadingZeros ds, ← digitsValue_dropLeadingZeros es]
  rcases Nat.lt_trichotomy (dropLeadingZeros ds).length (dropLeadingZeros es).length with
    h | h | h
  · rw [Nat.compare_eq_lt.2 h, Nat.compare_eq_lt.2 (digitsValue_lt_of_length_lt hds hes h)]
    rfl
  · rw [Nat.compare_eq_eq.2 h, Ordering.eq_then]
    have hdigits := compare_ofDigitChars (isDigit_of_mem_dropLeadingZeros hds)
      (isDigit_of_mem_dropLeadingZeros hes) h 0 0
    rwa [Nat.compare_eq_eq.2 rfl, Ordering.eq_then] at hdigits
  · rw [Nat.compare_eq_gt.2 h, Nat.compare_eq_gt.2 (digitsValue_lt_of_length_lt hes hds h)]
    rfl

/-! ## The three orders -/

theorem order_eq_eq_iff {a b : Version} : order a b = .eq ↔ a = b := by
  show compare a b = .eq ↔ a = b
  exact Std.compare_eq_iff_eq

/-- Two versions are equal if they were read from one text. -/
theorem eq_iff_of_parse {s t : String} {a b : Version} (ha : parse s = .ok a)
    (hb : parse t = .ok b) : a = b ↔ s = t := by
  obtain rfl := parse_eq_ok_iff.1 ha
  obtain rfl := parse_eq_ok_iff.1 hb
  exact ⟨congrArg text, text_injective⟩

/-- The orders of versions are lawful: a comparison the other way round is the reverse, and so none
is anything but a tie with itself; and they are transitive.  The order with texts settles every tie
of the order of releases and changes nothing else in it, and that order does the same to the order
without revisions. -/
theorem orders_lawful :
    Std.TransCmp precedence ∧ Std.TransCmp baseOrder ∧ Std.TransCmp order ∧
    ∀ (s t : String) (a b : Version), parse s = .ok a → parse t = .ok b →
      (order a b = .eq ↔ a = b) ∧ (a = b ↔ s = t) ∧
      (precedence a b ≠ .eq → order a b = precedence a b) ∧
      (precedence a b = .eq → baseOrder a b = .eq) := by
  refine ⟨inferInstance, inferInstance, inferInstanceAs (Std.TransOrd Version), ?_⟩
  intro s t a b ha hb
  refine ⟨order_eq_eq_iff, eq_iff_of_parse ha hb, order_eq_precedence, ?_⟩
  intro htie
  exact (Ordering.then_eq_eq.1 htie).1

/-! ### `1-r0` and `1` tie until their texts are compared -/

def plainOne : Version := ⟨.ofNat 1, [], none, [], none⟩

def revisedOne : Version := ⟨.ofNat 1, [], none, [], some (.ofNat 0)⟩

theorem orders_lawful_revisedOne :
    parse "1-r0" = .ok revisedOne ∧ parse "1" = .ok plainOne ∧
    precedence revisedOne plainOne = .eq ∧ baseOrder revisedOne plainOne = .eq ∧
    order revisedOne plainOne ≠ .eq := by
  have hrevised : parse "1-r0" = .ok revisedOne := parse_eq_ok_iff.2 (by decide)
  have hplain : parse "1" = .ok plainOne := parse_eq_ok_iff.2 (by decide)
  obtain ⟨hsettled, htexts, -, hbase⟩ :=
    orders_lawful.2.2.2 "1-r0" "1" revisedOne plainOne hrevised hplain
  have htie : precedence revisedOne plainOne = .eq := by decide
  refine ⟨hrevised, hplain, htie, hbase htie, ?_⟩
  intro horder
  exact absurd (htexts.1 (hsettled.1 horder)) (by decide)

end PackageCatalog.Version
