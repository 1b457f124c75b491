import PackageCatalog.Text.Blank

/-!
# Words that are written and read

A text without blanks is one word, and words that are joined by blanks are cut again where they were
joined:

    every word holds no blank → words (" ".intercalate ws) = ws                (words_intercalate)
-/

namespace PackageCatalog.Text

/-! ## Cutting -/

section
variable {sep : Char → Bool}

theorem splitBy_of_forall {cs : List Char} (h : ∀ c ∈ cs, sep c = false) : splitBy sep cs = [cs] := by
  induction cs with
  | nil => rfl
  | cons c r ih =>
    have hc : sep c = false := h c List.mem_cons_self
    unfold splitBy
    rw [ih fun d hd => h d (List.mem_cons_of_mem _ hd)]
    simp [hc]

theorem splitBy_append_cons {c : Char} (hc : sep c = true) (before after : List Char) :
    splitBy sep (before ++ c :: after) = splitBy sep before ++ splitBy sep after := by
  induction before with
  | nil => simp [splitBy, hc]
  | cons d r ih =>
    rw [List.cons_append, splitBy, splitBy, ih]
    cases hd : sep d with
    | true => simp
    | false =>
      cases hs : splitBy sep r with
      | nil => exact absurd hs (splitBy_ne_nil _ _)
      | cons w ws => simp

end

/-! ## Words -/

/-- A text that words give back as it is. -/
structure IsWord (s : String) : Prop where
  ne_empty : s ≠ ""
  dense : ∀ c ∈ s.toList, isBlank c = false

theorem isWord_of_mem_words {s w : String} (h : w ∈ words s) : IsWord w :=
  ⟨ne_empty_of_mem_words h, fun _ => isBlank_eq_false_of_mem_words h⟩

theorem words_of_isWord {w : String} (h : IsWord w) : words w = [w] := by
  have hne : w.toList ≠ [] := by simpa using h.ne_empty
  unfold words
  rw [splitBy_of_forall h.dense]
  simp [hne]

/-- The first word ends with the first blank. -/
theorem words_append {w : String} (h : IsWord w) (rest : String) :
    words (w ++ " " ++ rest) = w :: words rest := by
  have hne : w.toList ≠ [] := by simpa using h.ne_empty
  unfold words
  rw [String.toList_append, String.toList_append, List.append_assoc,
    show " ".toList ++ rest.toList = ' ' :: rest.toList from rfl,
    splitBy_append_cons (by decide), splitBy_of_forall h.dense]
  simp [hne]

theorem words_intercalate (ws : List String) (h : ∀ w ∈ ws, IsWord w) :
    words (" ".intercalate ws) = ws := by
  induction ws with
  | nil => rfl
  | cons w ws ih =>
    have hw := h w List.mem_cons_self
    cases ws with
    | nil => rw [String.intercalate_singleton, words_of_isWord hw]
    | cons w' ws =>
      rw [String.intercalate_cons_cons, words_append hw,
        ih fun v hv => h v (List.mem_cons_of_mem w hv)]

end PackageCatalog.Text
