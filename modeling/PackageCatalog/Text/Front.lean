/-!
# The front of a text

Readers take what they recognise from the front of a list of characters and return the rest.

    dropWord word cs = some rest ↔ cs = word ++ rest        (dropWord_eq_some_iff)
-/

namespace PackageCatalog.Text

/-- The rest of `cs` after `word`, if `cs` starts with it. -/
def dropWord (word cs : List Char) : Option (List Char) :=
  match word, cs with
  | [], cs => some cs
  | _ :: _, [] => none
  | w :: ws, c :: cs => if w = c then dropWord ws cs else none

theorem dropWord_eq_some_iff {word cs rest : List Char} :
    dropWord word cs = some rest ↔ cs = word ++ rest := by
  induction word generalizing cs with
  | nil => simp [dropWord]
  | cons w ws ih =>
    cases cs with
    | nil => simp [dropWord]
    | cons c cs =>
      unfold dropWord
      by_cases h : w = c
      · simp [h, ih]
      · rw [if_neg h]
        simp [eq_comm, h]

theorem length_dropWhile_le (p : Char → Bool) (cs : List Char) :
    (cs.dropWhile p).length ≤ cs.length :=
  (List.dropWhile_suffix p).length_le

end PackageCatalog.Text
