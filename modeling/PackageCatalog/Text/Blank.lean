/-!
# Blank characters, words and lines

Every file format of a catalogue is cut the same way: into lines, and a line into words.
`Text.trim` removes blanks at both ends, `Text.words` gives the runs between blanks and `Text.lines`
the lines.  Blank means the white-space class of Unicode.

    w ∈ words s → w holds no blank                                  (isBlank_eq_false_of_mem_words)
    joining the pieces of `splitBy` with the separator gives back the text   (joinWith_splitBy)
-/

namespace PackageCatalog.Text

/-! ## Algorithm -/

/-- The white-space class of Unicode. -/
def isBlank (c : Char) : Bool :=
  let n := c.toNat
  (0x09 ≤ n && n ≤ 0x0d) || n == 0x20 || n == 0x85 || n == 0xa0 || n == 0x1680 ||
    (0x2000 ≤ n && n ≤ 0x200a) || n == 0x2028 || n == 0x2029 || n == 0x202f || n == 0x205f ||
    n == 0x3000

def dropEndWhile (p : Char → Bool) (cs : List Char) : List Char :=
  (cs.reverse.dropWhile p).reverse

/-- The text without blanks at its end. -/
def trimEnd (s : String) : String :=
  String.ofList (dropEndWhile isBlank s.toList)

/-- The text without blanks at either end. -/
def trim (s : String) : String :=
  String.ofList (dropEndWhile isBlank (s.toList.dropWhile isBlank))

/-- The pieces between separators, empty ones included. -/
def splitBy (sep : Char → Bool) : List Char → List (List Char)
  | [] => [[]]
  | c :: r =>
    if sep c then [] :: splitBy sep r
    else match splitBy sep r with
      | [] => [[c]]
      | w :: ws => (c :: w) :: ws

/-- The maximal runs without a blank. -/
def words (s : String) : List String :=
  ((splitBy isBlank s.toList).filter (· ≠ [])).map String.ofList

/-- One carriage return at the end of a finished line belongs to its line end. -/
def dropReturn (cs : List Char) : List Char :=
  if cs.getLast? = some '\r' then cs.dropLast else cs

/-- A line ends with a line feed, and the last one may end with the text; after a final line feed
there is no further line. -/
def linesOfPieces : List (List Char) → List (List Char)
  | [] => []
  | [last] => if last = [] then [] else [last]
  | line :: next :: rest => dropReturn line :: linesOfPieces (next :: rest)

def lines (s : String) : List String :=
  (linesOfPieces (splitBy (· == '\n') s.toList)).map String.ofList

/-- The parts before and after the first `sep`. -/
def splitOnce (sep : Char) : List Char → Option (List Char × List Char)
  | [] => none
  | c :: r =>
    if c = sep then some ([], r)
    else (splitOnce sep r).map fun (before, after) => (c :: before, after)

/-- The parts of a text before and after its first `sep`. -/
def cut? (sep : Char) (s : String) : Option (String × String) :=
  (splitOnce sep s.toList).map fun (before, after) => (String.ofList before, String.ofList after)

/-! ## Lemmas -/

theorem splitBy_ne_nil (sep : Char → Bool) (cs : List Char) : splitBy sep cs ≠ [] := by
  induction cs with
  | nil => simp [splitBy]
  | cons c r ih =>
    unfold splitBy
    split
    · simp
    · split <;> simp

theorem sep_eq_false_of_mem_splitBy {sep : Char → Bool} {cs w : List Char}
    (hw : w ∈ splitBy sep cs) {c : Char} (hc : c ∈ w) : sep c = false := by
  induction cs generalizing w with
  | nil => simp [splitBy] at hw; simp [hw] at hc
  | cons d r ih =>
    unfold splitBy at hw
    split at hw
    · rcases List.mem_cons.1 hw with rfl | hw
      · simp at hc
      · exact ih hw hc
    · next hd =>
      split at hw
      · simp at hw; simp [hw] at hc; simpa [hc] using hd
      · next v vs hv =>
        rcases List.mem_cons.1 hw with rfl | hw
        · rcases List.mem_cons.1 hc with rfl | hc
          · simpa using hd
          · exact ih (hv ▸ List.mem_cons_self ..) hc
        · exact ih (hv ▸ List.mem_cons_of_mem _ hw) hc

theorem isBlank_eq_false_of_mem_words {s w : String} (hw : w ∈ words s) {c : Char}
    (hc : c ∈ w.toList) : isBlank c = false := by
  obtain ⟨v, hv, rfl⟩ := List.mem_map.1 hw
  rw [String.toList_ofList] at hc
  exact sep_eq_false_of_mem_splitBy (List.mem_filter.1 hv).1 hc

theorem ne_empty_of_mem_words {s w : String} (hw : w ∈ words s) : w ≠ "" := by
  obtain ⟨v, hv, rfl⟩ := List.mem_map.1 hw
  have hne : v ≠ [] := by simpa using (List.mem_filter.1 hv).2
  intro h
  exact hne (by simpa using congrArg String.toList h)

/-- Nothing is lost by cutting: the pieces, joined again, are the text. -/
theorem joinWith_splitBy (x : Char) (cs : List Char) :
    [x].intercalate (splitBy (· == x) cs) = cs := by
  induction cs with
  | nil => rfl
  | cons c r ih =>
    unfold splitBy
    cases hs : splitBy (· == x) r with
    | nil => exact absurd hs (splitBy_ne_nil _ _)
    | cons w ws =>
      rw [hs] at ih
      by_cases hc : c = x
      · subst hc
        cases ws <;> simpa [List.intercalate, List.intersperse] using ih
      · have hcx : (c == x) = false := by simpa using hc
        cases ws <;> simpa [hcx, List.intercalate, List.intersperse] using ih

theorem splitOnce_eq_some_iff {sep : Char} {cs before after : List Char} :
    splitOnce sep cs = some (before, after) ↔ cs = before ++ sep :: after ∧ sep ∉ before := by
  induction cs generalizing before with
  | nil => simp [splitOnce]
  | cons c r ih =>
    unfold splitOnce
    by_cases hc : c = sep
    · subst hc
      rw [if_pos rfl]
      cases before with
      | nil => simp [eq_comm]
      | cons b bs => simp; intro h; simp [h]
    · rw [if_neg hc]
      cases before with
      | nil => simp [hc]
      | cons b bs =>
        simp only [Option.map_eq_some_iff, Prod.mk.injEq, List.cons.injEq, List.cons_append,
          List.mem_cons, not_or, Prod.exists]
        constructor
        · rintro ⟨u, v, h, ⟨rfl, rfl⟩, rfl⟩
          have := ih.1 h
          exact ⟨⟨rfl, this.1⟩, fun same => hc same.symm, this.2⟩
        · rintro ⟨⟨rfl, h⟩, -, h3⟩
          exact ⟨bs, after, ih.2 ⟨h, h3⟩, ⟨rfl, rfl⟩, rfl⟩

end PackageCatalog.Text
