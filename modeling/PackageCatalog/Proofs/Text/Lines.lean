import Mathlib.Data.List.DropRight
import PackageCatalog.Proofs.Text.Words

/-!
# Lines that are written and trimmed

A text that is joined from lines is cut again where they were joined, but for the line ends that a
reader takes off and for a blank line at the end.  Where blanks at the ends of lines and blank lines
do not count, nothing of that is seen:

    the trimmed lines of "\n".intercalate ls that are not empty are those of ls
                                                                     (trimmed_lines_intercalate)
-/

namespace PackageCatalog.Text

/-! ## Lines -/

@[simp] theorem lines_empty : lines "" = [] := rfl

theorem feed_eq_false {cs : List Char} (h : '\n' ∉ cs) : ∀ c ∈ cs, (c == '\n') = false := by
  intro c hc
  rw [beq_eq_false_iff_ne]
  rintro rfl
  exact h hc

/-- The first line ends with the first line feed. -/
theorem lines_append_feed {line : String} (h : '\n' ∉ line.toList) (rest : String) :
    lines (line ++ "\n" ++ rest) = String.ofList (dropReturn line.toList) :: lines rest := by
  unfold lines
  rw [String.toList_append, String.toList_append, List.append_assoc,
    show "\n".toList ++ rest.toList = '\n' :: rest.toList from rfl,
    splitBy_append_cons (by decide), splitBy_of_forall (feed_eq_false h)]
  obtain ⟨next, pieces, hpieces⟩ := List.exists_cons_of_ne_nil
    (splitBy_ne_nil (· == '\n') rest.toList)
  rw [hpieces, List.singleton_append, linesOfPieces, List.map_cons]

theorem lines_of_notMem {line : String} (h : '\n' ∉ line.toList) (hne : line ≠ "") :
    lines line = [line] := by
  have hchars : line.toList ≠ [] := by simpa using hne
  unfold lines
  rw [splitBy_of_forall (feed_eq_false h), linesOfPieces, if_neg hchars, List.map_cons,
    String.ofList_toList, List.map_nil]

/-! ## Blanks at the end -/

section
variable {p : Char → Bool} {c : Char}

theorem dropEndWhile_concat (h : p c = true) (cs : List Char) :
    dropEndWhile p (cs ++ [c]) = dropEndWhile p cs :=
  List.rdropWhile_concat_pos p cs c h

/-- Nothing before a character that stays is dropped. -/
theorem dropEndWhile_append_cons (h : p c = false) (before after : List Char) :
    dropEndWhile p (before ++ c :: after) = before ++ c :: dropEndWhile p after := by
  induction after using List.reverseRecOn with
  | nil => exact List.rdropWhile_concat_neg p before c (by simp [h])
  | append_singleton after d ih =>
    cases hd : p d with
    | true =>
      rw [dropEndWhile_concat hd, ← ih, ← List.cons_append, ← List.append_assoc,
        dropEndWhile_concat hd]
    | false =>
      have hstays : ∀ cs, dropEndWhile p (cs ++ [d]) = cs ++ [d] :=
        fun cs => List.rdropWhile_concat_neg p cs d (by simp [hd])
      rw [hstays, ← List.cons_append, ← List.append_assoc, hstays]

end

/-! ## Trimming -/

/-- What is left of a text stands between blanks. -/
theorem exists_eq_trim (s : String) : ∃ front back : List Char,
    s.toList = front ++ ((trim s).toList ++ back) ∧
      (∀ c ∈ front, isBlank c = true) ∧ ∀ c ∈ back, isBlank c = true := by
  refine ⟨s.toList.takeWhile isBlank, (s.toList.dropWhile isBlank).rtakeWhile isBlank, ?_,
    fun c => List.mem_takeWhile_imp, fun c => List.mem_rtakeWhile_imp⟩
  have hback : dropEndWhile isBlank (s.toList.dropWhile isBlank) ++
      (s.toList.dropWhile isBlank).rtakeWhile isBlank = s.toList.dropWhile isBlank :=
    List.rdropWhile_append_rtakeWhile
  unfold trim
  rw [String.toList_ofList, hback, List.takeWhile_append_dropWhile]

/-- A blank at the end makes no difference. -/
theorem trim_concat {c : Char} (h : isBlank c = true) (cs : List Char) :
    trim (String.ofList (cs ++ [c])) = trim (String.ofList cs) := by
  unfold trim
  rw [String.toList_ofList, String.toList_ofList, List.dropWhile_append]
  split
  · next hnil =>
    rw [List.isEmpty_iff] at hnil
    rw [hnil, List.dropWhile_cons_of_pos h]
    rfl
  · rw [dropEndWhile_concat h]

/-- The carriage return of a line end is a blank. -/
theorem trim_dropReturn (line : String) :
    trim (String.ofList (dropReturn line.toList)) = trim line := by
  unfold dropReturn
  split
  · next hlast =>
    obtain ⟨front, hfront⟩ := List.getLast?_eq_some_iff.1 hlast
    rw [hfront, List.dropLast_concat, ← trim_concat (by decide : isBlank '\r' = true), ← hfront,
      String.ofList_toList]
  · rw [String.ofList_toList]

theorem trim_trimEnd (s : String) : trim (trimEnd s) = trim s := by
  have hend (cs : List Char) :
      trim (String.ofList (dropEndWhile isBlank cs)) = trim (String.ofList cs) := by
    induction cs using List.reverseRecOn with
    | nil => rfl
    | append_singleton cs c ih =>
      by_cases hc : isBlank c = true
      · rw [dropEndWhile_concat hc, ih, trim_concat hc]
      · rw [show dropEndWhile isBlank (cs ++ [c]) = cs ++ [c] from
          List.rdropWhile_concat_neg isBlank cs c hc]
  have hs := hend s.toList
  rwa [String.ofList_toList] at hs

theorem trimmed_lines_intercalate {ls : List String} (h : ∀ line ∈ ls, '\n' ∉ line.toList) :
    ((lines ("\n".intercalate ls)).map trim).filter (fun line => !line.isEmpty) =
      (ls.map trim).filter fun line => !line.isEmpty := by
  induction ls with
  | nil => rfl
  | cons line ls ih =>
    obtain ⟨hline, hls⟩ := List.forall_mem_cons.1 h
    cases ls with
    | nil =>
      rw [String.intercalate_singleton]
      by_cases hne : line = ""
      · subst hne
        rfl
      · rw [lines_of_notMem hline hne]
    | cons next ls =>
      rw [String.intercalate_cons_cons, lines_append_feed hline, List.map_cons, List.map_cons,
        trim_dropReturn, List.filter_cons, List.filter_cons, ih hls]

end PackageCatalog.Text
