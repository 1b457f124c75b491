import PackageCatalog.Text.Lower

/-!
# Texts in small letters

Which small letter a letter has depends at most on the word around it, and an underscore ends
words, so that the parts of a text between underscores are written in small letters one by one:

    lower (a ++ "_" ++ b) = lower a ++ "_" ++ lower b                     (lower_append_underscore)
    the small letters of a text are ASCII → they are their own small letters           (lower_lower)
-/

namespace PackageCatalog.Text

variable {cs : List Char} {c : Char}

/-! ## Capital letters -/

theorem isUpper_eq_false_of_lt (h : 90 < c.toNat) : c.isUpper = false := by
  rw [Bool.eq_false_iff]
  intro hupper
  have hle : c.toNat ≤ 90 := (of_decide_eq_true hupper).2
  omega

/-- Small letters stand behind the capital letters of ASCII. -/
theorem lt_of_mem_caseRanges :
    ∀ r ∈ caseRanges, (90 : Int) < r.1 + r.2.2.2 := by decide +kernel

theorem isUpper_toLower (c : Char) : c.toLower.isUpper = false := by
  unfold Char.toLower
  split
  · next h =>
    refine isUpper_eq_false_of_lt ?_
    obtain ⟨hge, hle⟩ := h
    have hge : 65 ≤ c.val.toNat := hge
    have hle : c.val.toNat ≤ 90 := hle
    show 90 < (c.val + ('a'.val - 'A'.val)).toNat
    rw [UInt32.toNat_add]
    have hstep : ('a'.val - 'A'.val).toNat = 32 := by decide
    omega
  · next h => exact decide_eq_false h

theorem isUpper_ofNat {n : Nat} (h : 90 < n) : (Char.ofNat n).isUpper = false := by
  by_cases hvalid : n.isValidChar
  · rw [Char.ofNat, dif_pos hvalid]
    exact isUpper_eq_false_of_lt (show 90 < (Char.ofNatAux n hvalid).toNat from h)
  · rw [Char.ofNat, dif_neg hvalid]
    rfl

theorem isUpper_lowerChar (c : Char) : (lowerChar c).isUpper = false := by
  unfold lowerChar
  split
  · exact isUpper_toLower c
  · next hascii =>
    split
    · next first last step offset hfind =>
      have hrange := lt_of_mem_caseRanges _ (List.mem_of_find?_eq_some hfind)
      have hin := List.find?_some hfind
      simp only [inCaseRange, Bool.and_eq_true, decide_eq_true_eq] at hin
      refine isUpper_ofNat ?_
      dsimp only at hrange
      omega
    · exact isUpper_eq_false_of_lt (by omega)

theorem isUpper_of_mem_lowerChars {before : List Char} (h : c ∈ lowerChars before cs) :
    c.isUpper = false := by
  induction cs generalizing before with
  | nil => cases h
  | cons d r ih =>
    unfold lowerChars at h
    rcases List.mem_append.1 h with h | h
    · split at h
      · simp only [List.mem_cons, List.not_mem_nil, or_false] at h
        rcases h with rfl | rfl <;> decide
      · split at h
        · rw [List.mem_singleton.1 h]
          decide
        · rw [List.mem_singleton.1 h]
          exact isUpper_lowerChar d
    · exact ih h

/-! ## Words -/

/-- What follows an underscore belongs to another word. -/
theorem meetsCased_append (word rest : List Char) :
    meetsCased (word ++ '_' :: rest) = meetsCased word := by
  unfold meetsCased
  induction word with
  | nil => rfl
  | cons c word ih =>
    rw [List.cons_append, List.dropWhile_cons, List.dropWhile_cons]
    split
    · exact ih
    · rfl

theorem lowerChars_before (before₁ before₂ cs : List Char) :
    lowerChars (before₁ ++ '_' :: before₂) cs = lowerChars before₁ cs := by
  induction cs generalizing before₁ with
  | nil => rfl
  | cons c r ih =>
    unfold lowerChars
    rw [meetsCased_append, ← List.cons_append, ih]

theorem lowerChars_append (before as bs : List Char) :
    lowerChars before (as ++ '_' :: bs) = lowerChars before as ++ '_' :: lowerChars [] bs := by
  induction as generalizing before with
  | nil => exact congrArg ('_' :: ·) (lowerChars_before [] before bs)
  | cons c as ih =>
    rw [List.cons_append, lowerChars, lowerChars, meetsCased_append, ih, List.append_assoc]

theorem lower_append_underscore (a b : String) :
    lower (a ++ "_" ++ b) = lower a ++ "_" ++ lower b := by
  have hcut : (a ++ "_" ++ b).toList = a.toList ++ '_' :: b.toList := by simp
  unfold lower
  rw [← String.toList_inj, hcut, lowerChars_append]
  simp

theorem lowerChars_eq_nil_iff {before : List Char} : lowerChars before cs = [] ↔ cs = [] := by
  cases cs with
  | nil => exact Iff.rfl
  | cons c r =>
    unfold lowerChars
    split
    · simp
    · split <;> simp

theorem lower_eq_empty_iff {s : String} : lower s = "" ↔ s = "" := by
  unfold lower
  rw [← String.toList_inj, ← String.toList_inj, String.toList_ofList]
  exact lowerChars_eq_nil_iff

/-! ## Small letters of small letters -/

theorem lowerChar_eq_self (hascii : c.toNat < 0x80) (hupper : c.isUpper = false) :
    lowerChar c = c := by
  unfold lowerChar
  rw [if_pos hascii]
  exact dif_neg (of_decide_eq_false hupper)

theorem lowerChars_eq_self (h : ∀ c ∈ cs, c.toNat < 0x80 ∧ c.isUpper = false)
    (before : List Char) : lowerChars before cs = cs := by
  induction cs generalizing before with
  | nil => rfl
  | cons c r ih =>
    obtain ⟨⟨hascii, hupper⟩, hr⟩ := List.forall_mem_cons.1 h
    unfold lowerChars
    rw [ih hr, if_neg (by simp; omega), if_neg (by simp; omega), lowerChar_eq_self hascii hupper]
    rfl

theorem isUpper_of_mem_lower {s : String} (h : c ∈ (lower s).toList) : c.isUpper = false := by
  unfold lower at h
  rw [String.toList_ofList] at h
  exact isUpper_of_mem_lowerChars h

theorem lower_lower {s : String} (h : ∀ c ∈ (lower s).toList, c.toNat < 0x80) :
    lower (lower s) = lower s := by
  have hchars : lowerChars [] (lower s).toList = (lower s).toList :=
    lowerChars_eq_self (fun c hc => ⟨h c hc, isUpper_of_mem_lower hc⟩) []
  rw [lower, hchars, String.ofList_toList]

end PackageCatalog.Text
