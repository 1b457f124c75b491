import PackageCatalog.Proofs.Version.Reading
import PackageCatalog.Version.Order

/-!
# The order of versions and how numbers are written

    baseOrder v v = .eq      precedence v v = .eq      order v w = .eq ↔ v = w

A numeral that is read as a whole number and written again loses its leading zeros
(`Numeral.normal`).  Whole numbers do not notice; a number after the first period does, for with a
leading zero it is a decimal fraction.
-/

namespace PackageCatalog

/-! ## Whole numbers and their digits -/

theorem toNat_of_isDigit {c : Char} (h : c.isDigit = true) : 48 ≤ c.toNat ∧ c.toNat ≤ 57 := by
  simp only [Char.isDigit, Bool.and_eq_true, decide_eq_true_eq] at h
  exact h

theorem digitChar_of_isDigit {c : Char} (h : c.isDigit = true) :
    Nat.digitChar (c.toNat - '0'.toNat) = c := by
  have hbounds := toNat_of_isDigit h
  have hzero : '0'.toNat = 48 := rfl
  rw [hzero]
  apply Char.toNat_inj.1
  rw [Nat.toNat_digitChar_of_lt_ten (by omega)]
  omega

/-- Digits that follow a positive number are its further digits. -/
theorem toDigits_ofDigitChars (cs : List Char) (hcs : ∀ c ∈ cs, c.isDigit = true) {n : Nat}
    (hn : 0 < n) : Nat.toDigits 10 (Nat.ofDigitChars 10 cs n) = Nat.toDigits 10 n ++ cs := by
  induction cs generalizing n with
  | nil => simp
  | cons c cs ih =>
    obtain ⟨hc, hcs⟩ := List.forall_mem_cons.1 hcs
    have hdigit := digitChar_of_isDigit hc
    have hlt : c.toNat - '0'.toNat < 10 := by
      have := Nat.isDigit_digitChar (n := c.toNat - '0'.toNat)
      rw [hdigit, hc] at this
      exact of_decide_eq_true this.symm
    calc Nat.toDigits 10 (Nat.ofDigitChars 10 (c :: cs) n)
        = Nat.toDigits 10 (Nat.ofDigitChars 10 cs (10 * n + (c.toNat - '0'.toNat))) := by
          rw [Nat.ofDigitChars_cons]
      _ = Nat.toDigits 10 (10 * n + (c.toNat - '0'.toNat)) ++ cs := ih hcs (by omega)
      _ = Nat.toDigits 10 n ++ Nat.toDigits 10 (c.toNat - '0'.toNat) ++ cs := by
          rw [Nat.toDigits_append_toDigits (by decide) hn hlt]
      _ = Nat.toDigits 10 n ++ c :: cs := by
          rw [Nat.toDigits_of_lt_base hlt, hdigit, List.append_assoc, List.singleton_append]

theorem digitsValue_cons_zero (cs : List Char) : digitsValue ('0' :: cs) = digitsValue cs := by
  simp [digitsValue, Nat.ofDigitChars_cons]

theorem digitsValue_eq_zero_iff {ds : List Char} (hds : ∀ c ∈ ds, c.isDigit = true) :
    digitsValue ds = 0 ↔ ∀ c ∈ ds, c = '0' := by
  induction ds with
  | nil => simp [digitsValue]
  | cons c cs ih =>
    obtain ⟨hc, hcs⟩ := List.forall_mem_cons.1 hds
    rw [List.forall_mem_cons]
    by_cases hzero : c = '0'
    · rw [hzero, digitsValue_cons_zero, ih hcs]
      simp
    · have hpos : 0 < c.toNat - '0'.toNat := by
        refine Nat.pos_of_ne_zero fun h => hzero ?_
        rw [← digitChar_of_isDigit hc, h]
        rfl
      have hvalue : digitsValue (c :: cs) ≠ 0 := by
        rw [digitsValue, Nat.ofDigitChars_cons, Nat.mul_zero, Nat.zero_add,
          Nat.ofDigitChars_eq_ofDigitChars_zero]
        exact Nat.ne_of_gt (Nat.add_pos_left (Nat.mul_pos (Nat.pow_pos (by decide)) hpos) _)
      simp [hvalue, hzero]

/-- Only zero is written with a leading zero. -/
theorem startsWithZero_toDigits (n : Nat) :
    Version.startsWithZero (Nat.toDigits 10 n) = true ↔ n = 0 := by
  induction n using Nat.strongRecOn with
  | ind n ih =>
    by_cases hlt : n < 10
    · rw [Nat.toDigits_of_lt_base hlt]
      simp [Version.startsWithZero, Nat.digitChar_eq_zero]
    · have hcut : Nat.toDigits 10 n = Nat.toDigits 10 (n / 10) ++ Nat.toDigits 10 (n % 10) := by
        rw [Nat.toDigits_append_toDigits (by decide) (by omega) (Nat.mod_lt _ (by decide)),
          Nat.div_add_mod]
      have hfront := ih (n / 10) (by omega)
      obtain ⟨d, r, hd⟩ := List.exists_cons_of_ne_nil (Nat.toDigits_ne_nil (n := n / 10) (b := 10))
      rw [hcut, hd]
      rw [hd] at hfront
      simp only [Version.startsWithZero, List.cons_append, List.head?_cons] at hfront ⊢
      rw [hfront]
      omega

namespace Numeral

/-- The number written without leading zeros. -/
def normal (n : Numeral) : Numeral := ofNat (digitsValue n.val)

/-- A zero stands before digits that are not all zeros. -/
def Padded (n : Numeral) : Prop :=
  Version.startsWithZero n.val = true ∧ digitsValue n.val ≠ 0

instance (n : Numeral) : Decidable n.Padded := by
  unfold Padded
  infer_instance

theorem digitsValue_normal (n : Numeral) : digitsValue n.normal.val = digitsValue n.val :=
  digitsValue_ofNat _

theorem normal_of_not_startsWithZero {n : Numeral} (h : Version.startsWithZero n.val = false) :
    n.normal = n := by
  obtain ⟨ds, hne, hds⟩ := n
  obtain ⟨c, cs, rfl⟩ := List.exists_cons_of_ne_nil hne
  obtain ⟨hc, hcs⟩ := List.forall_mem_cons.1 hds
  have hzero : c ≠ '0' := by
    rintro rfl
    cases h
  have hdigit := digitChar_of_isDigit hc
  have hpos : 0 < c.toNat - '0'.toNat := by
    refine Nat.pos_of_ne_zero fun h => hzero ?_
    rw [← hdigit, h]
    rfl
  have hlt : c.toNat - '0'.toNat < 10 := by
    have := Nat.isDigit_digitChar (n := c.toNat - '0'.toNat)
    rw [hdigit, hc] at this
    exact of_decide_eq_true this.symm
  apply Subtype.ext
  calc Nat.toDigits 10 (digitsValue (c :: cs))
      = Nat.toDigits 10 (Nat.ofDigitChars 10 cs (c.toNat - '0'.toNat)) := by
        rw [digitsValue, Nat.ofDigitChars_cons, Nat.mul_zero, Nat.zero_add]
    _ = Nat.toDigits 10 (c.toNat - '0'.toNat) ++ cs := toDigits_ofDigitChars cs hcs hpos
    _ = c :: cs := by rw [Nat.toDigits_of_lt_base hlt, hdigit, List.singleton_append]

end Numeral

namespace Version

/-! ## Decimal fractions -/

theorem dropTrailingZeros_isPrefix (ds : List Char) : dropTrailingZeros ds <+: ds := by
  have h := List.reverse_prefix.2 (List.dropWhile_suffix (l := ds.reverse) (· == '0'))
  rwa [List.reverse_reverse] at h

theorem dropTrailingZeros_eq_nil_iff {ds : List Char} :
    dropTrailingZeros ds = [] ↔ ∀ c ∈ ds, c = '0' := by
  rw [dropTrailingZeros, List.reverse_eq_nil_iff]
  constructor
  · intro hnil c hc
    have htake := List.takeWhile_append_dropWhile (p := (· == '0')) (l := ds.reverse)
    rw [hnil, List.append_nil] at htake
    rw [← List.mem_reverse, ← htake] at hc
    exact beq_iff_eq.1 (List.all_eq_true.1 List.all_takeWhile c hc)
  · intro hzeros
    have hdrop : (ds.reverse ++ []).dropWhile (· == '0') = [] :=
      List.dropWhile_append_of_pos fun c hc => beq_iff_eq.2 (hzeros c (List.mem_reverse.1 hc))
    rwa [List.append_nil] at hdrop

/-- A fraction that is not nil keeps its first digit. -/
theorem startsWithZero_dropTrailingZeros {ds : List Char} (hds : ∀ c ∈ ds, c.isDigit = true)
    (h : digitsValue ds ≠ 0) : startsWithZero (dropTrailingZeros ds) = startsWithZero ds := by
  have hne : dropTrailingZeros ds ≠ [] :=
    fun hnil => h ((digitsValue_eq_zero_iff hds).2 (dropTrailingZeros_eq_nil_iff.1 hnil))
  obtain ⟨c, r, hc⟩ := List.exists_cons_of_ne_nil hne
  obtain ⟨rest, hrest⟩ := dropTrailingZeros_isPrefix ds
  rw [hc] at hrest ⊢
  rw [← hrest]
  rfl

theorem compareMinor_normal {n : Numeral} (h : ¬ n.Padded) (a : List Char) :
    compareMinor a n.normal.val = compareMinor a n.val := by
  cases hzero : startsWithZero n.val with
  | false => rw [Numeral.normal_of_not_startsWithZero hzero]
  | true =>
    -- zeros only: both are the fraction nil
    have hvalue : digitsValue n.val = 0 := Decidable.not_not.1 fun hne => h ⟨hzero, hne⟩
    have hnormal : n.normal.val = ['0'] := by
      show Nat.toDigits 10 (digitsValue n.val) = ['0']
      rw [hvalue, Nat.toDigits_zero]
    have hnil : dropTrailingZeros n.val = [] :=
      dropTrailingZeros_eq_nil_iff.2 ((digitsValue_eq_zero_iff n.property.2).1 hvalue)
    rw [hnormal, compareMinor, compareMinor, hzero, hnil, Bool.or_true, if_pos rfl,
      show startsWithZero ['0'] = true from rfl, Bool.or_true, if_pos rfl,
      show dropTrailingZeros ['0'] = [] from rfl]

theorem compareMinor_normal_ne {n : Numeral} (h : n.Padded) :
    compareMinor n.val n.normal.val ≠ .eq := by
  obtain ⟨hzero, hvalue⟩ := h
  have hnormal : startsWithZero (dropTrailingZeros n.normal.val) = false := by
    rw [startsWithZero_dropTrailingZeros n.normal.property.2 (by rwa [Numeral.digitsValue_normal])]
    exact Bool.eq_false_iff.2 fun hz => hvalue ((startsWithZero_toDigits _).1 hz)
  rw [compareMinor, hzero, Bool.true_or, if_pos rfl]
  intro heq
  have hdigits := Std.LawfulEqOrd.eq_of_compare heq
  rw [← hdigits, startsWithZero_dropTrailingZeros n.property.2 hvalue, hzero] at hnormal
  cases hnormal

/-! ## Equal versions -/

@[simp] theorem compareValues_self (ds : List Char) : compareValues ds ds = .eq :=
  Std.compare_self

@[simp] theorem compareMinor_self (ds : List Char) : compareMinor ds ds = .eq := by
  unfold compareMinor
  split
  · exact Std.compare_self
  · exact compareValues_self ds

@[simp] theorem compareMinors_self (minors : List Numeral) : compareMinors minors minors = .eq := by
  induction minors with
  | nil => rfl
  | cons n ns ih => simp [compareMinors, ih]

@[simp] theorem compareLetters_self (letter : Option VersionLetter) :
    compareLetters letter letter = .eq := by
  cases letter with
  | none => rfl
  | some c => exact Std.compare_self

@[simp] theorem compareSuffix_self (s : VersionSuffix) : compareSuffix s s = .eq := by
  simp [compareSuffix]

@[simp] theorem compareSuffixes_self (suffixes : List VersionSuffix) :
    compareSuffixes suffixes suffixes = .eq := by
  induction suffixes with
  | nil => rfl
  | cons s ss ih => simp [compareSuffixes, ih]

@[simp] theorem baseOrder_self (v : Version) : baseOrder v v = .eq := by
  simp [baseOrder]

@[simp] theorem precedence_self (v : Version) : precedence v v = .eq := by
  simp [precedence]

/-- The text settles every tie. -/
instance : Std.LawfulEqOrd Version where
  compare_self {v} := by
    show order v v = .eq
    rw [order, precedence_self]
    exact Std.compare_self
  eq_of_compare {v w} h := by
    have htext := (Ordering.then_eq_eq.1 (h : order v w = .eq)).2
    exact text_injective (Std.LawfulEqOrd.eq_of_compare htext)

end Version

end PackageCatalog
