import Mathlib.Data.List.TakeWhile
import PackageCatalog.Proofs.Index.Entries
import PackageCatalog.Proofs.NamesCache.Lookup
import PackageCatalog.Proofs.Text.Words
import PackageCatalog.Repository.Installed

/-!
# The text of a provides cache

What is written for a list of provisions is read back as their entries, and no line is reported:

    r.readProvides (r.providesContent provisions) = the entries of the provisions
                                                               (readProvides_providesContent)

A line holds words with a blank between any two.  Names and versions hold no blank, so the words of
a line are the texts that were written (`Provision.words_body`), and each is read as what it was
(`QualifiedName.parse_text`, `Version.parse_eq_ok_iff`).
-/

namespace PackageCatalog

namespace Text

/-! ## Lines -/

theorem IsWord.isLine {w : String} (h : IsWord w) : IsLine w := by
  constructor <;> exact fun hc => absurd (h.dense _ hc) (by decide)

theorem IsLine.append {s s' : String} (h : IsLine s) (h' : IsLine s') : IsLine (s ++ s') := by
  constructor
  · rw [String.toList_append, List.mem_append, not_or]
    exact ⟨h.1, h'.1⟩
  · rw [String.toList_append, List.mem_append, not_or]
    exact ⟨h.2, h'.2⟩

theorem isLine_space : IsLine " " := ⟨by decide, by decide⟩

theorem isLine_intercalate (ws : List String) (h : ∀ w ∈ ws, IsWord w) :
    IsLine (" ".intercalate ws) := by
  induction ws with
  | nil => exact ⟨by decide, by decide⟩
  | cons w ws ih =>
    have hw := (h w List.mem_cons_self).isLine
    cases ws with
    | nil => rwa [String.intercalate_singleton]
    | cons w' ws =>
      rw [String.intercalate_cons_cons]
      exact (hw.append isLine_space).append (ih fun v hv => h v (List.mem_cons_of_mem w hv))

theorem trim_ne_empty {s : String} {c : Char} (hc : c ∈ s.toList) (h : isBlank c = false) :
    trim s ≠ "" := by
  intro htrim
  have hdrop : (s.toList.dropWhile isBlank).reverse.dropWhile isBlank = [] := by
    simpa [trim, dropEndWhile] using htrim
  rw [List.dropWhile_eq_nil_iff] at hdrop
  rw [← List.takeWhile_append_dropWhile (p := isBlank) (l := s.toList), List.mem_append] at hc
  have hblank : isBlank c = true := by
    rcases hc with hc | hc
    · exact List.mem_takeWhile_imp hc
    · exact hdrop c (List.mem_reverse.2 hc)
  rw [h] at hblank
  cases hblank

end Text

/-! ## Names and versions -/

theorem not_isBlank_of_isAlphanum {c : Char} (h : c.isAlphanum = true) :
    Text.isBlank c = false := by
  have h := toNat_of_isAlphanum h
  simp only [Text.isBlank, Bool.or_eq_false_iff, Bool.and_eq_false_iff, decide_eq_false_iff_not,
    beq_eq_false_iff_ne]
  omega

theorem not_isBlank_of_isEntryChar {c : Char} (h : isEntryChar c = true) :
    Text.isBlank c = false := by
  rcases Bool.or_eq_true_iff.1 h with h | h
  · exact not_isBlank_of_isAlphanum h
  · simp only [List.mem_cons, List.not_mem_nil, or_false, decide_eq_true_eq] at h
    rcases h with rfl | rfl | rfl | rfl <;> decide

/-- No name holds a character that is not one of an entry. -/
theorem isEntryChar_of_mem {others : Char → Bool} {cs : List Char}
    (hothers : ∀ c, others c = true → isEntryChar c = true)
    (h : isNameOf isNameStart others cs = true) : ∀ c ∈ cs, isEntryChar c = true := by
  refine forall_mem_of_isNameOf (fun c hc => ?_) hothers h
  rcases Bool.or_eq_true_iff.1 hc with h | h
  · exact Bool.or_eq_true_iff.2 (.inl h)
  · rw [beq_iff_eq.1 h]
    decide

theorem QualifiedName.isWord (n : QualifiedName) : Text.IsWord n.text := by
  have hcategory := isEntryChar_of_mem (fun _ h => h) n.category.valid
  have hpackage := isEntryChar_of_mem (fun c h => by
    simp only [isEntryChar, Bool.or_eq_true, decide_eq_true_eq, List.mem_cons, List.not_mem_nil,
      or_false] at h ⊢
    tauto) (Bool.and_eq_true_iff.1 n.package.valid).1
  constructor
  · simp [QualifiedName.text]
  · simp only [QualifiedName.text, String.toList_append, List.mem_append]
    rintro c ((hc | hc) | hc)
    · exact not_isBlank_of_isEntryChar (hcategory c hc)
    · rw [List.mem_singleton.1 hc]
      decide
    · exact not_isBlank_of_isEntryChar (hpackage c hc)

theorem Version.isWord (v : Version) : Text.IsWord v.text := by
  constructor
  · intro h
    exact v.render_ne_nil (by rw [← v.toList_text, h]; rfl)
  · rw [v.toList_text]
    intro c hc
    rcases frontChar_of_mem_render hc with h | rfl
    · exact not_isBlank_of_isEntryChar (isEntryChar_of_frontChar h)
    · decide

namespace InstalledRepository

/-! ## Lines -/

variable {r : InstalledRepository} {t : FileTree}

/-- A line without its end. -/
def Provision.body (p : Provision) : String :=
  p.provider.text ++ " " ++ p.version.text ++ " " ++
    " ".intercalate (p.virtuals.map QualifiedName.text)

theorem isWord_of_mem_names {names : List QualifiedName} :
    ∀ w ∈ names.map QualifiedName.text, Text.IsWord w := by
  intro w hw
  obtain ⟨n, -, rfl⟩ := List.mem_map.1 hw
  exact n.isWord

theorem Provision.line_eq (p : Provision) : p.line = p.body ++ "\n" := rfl

theorem Provision.isLine (p : Provision) : Text.IsLine p.body :=
  (((p.provider.isWord.isLine.append Text.isLine_space).append p.version.isWord.isLine).append
    Text.isLine_space).append (Text.isLine_intercalate _ isWord_of_mem_names)

theorem Provision.words_body (p : Provision) : Text.words p.body =
    p.provider.text :: p.version.text :: p.virtuals.map QualifiedName.text := by
  have hbody : p.body = p.provider.text ++ " " ++ (p.version.text ++ " " ++
      " ".intercalate (p.virtuals.map QualifiedName.text)) := by
    simp [body, String.append_assoc]
  rw [hbody, Text.words_append p.provider.isWord, Text.words_append p.version.isWord,
    Text.words_intercalate _ isWord_of_mem_names]

theorem Provision.trim_body_ne_empty (p : Provision) : Text.trim p.body ≠ "" := by
  obtain ⟨hne, hdense⟩ := p.provider.isWord
  obtain ⟨c, rest, hcons⟩ : ∃ c rest, p.provider.text.toList = c :: rest :=
    List.exists_cons_of_ne_nil (by simpa using hne)
  have hc : c ∈ p.provider.text.toList := hcons ▸ List.mem_cons_self
  refine Text.trim_ne_empty ?_ (hdense c hc)
  simp only [body, String.toList_append, List.mem_append]
  exact .inl (.inl (.inl (.inl hc)))

theorem mapM_parse_text (names : List QualifiedName) :
    (names.map QualifiedName.text).mapM QualifiedName.parse = .ok names := by
  induction names with
  | nil => rfl
  | cons n names ih =>
    rw [List.map_cons, List.mapM_cons, n.parse_text, ih]
    rfl

/-- A line is read as the provision for which it was written. -/
theorem parseProvision_body (p : Provision) : parseProvision p.body = .ok p := by
  unfold parseProvision
  rw [p.words_body]
  simp only
  rw [p.provider.parse_text, Version.parse_eq_ok_iff.2 rfl, mapM_parse_text]
  rfl

/-! ## The cache -/

theorem lines_provisions (provisions : List Provision) :
    Text.lines (String.join (provisions.map Provision.line)) = provisions.map Provision.body := by
  induction provisions with
  | nil => rfl
  | cons p provisions ih =>
    rw [List.map_cons, String.join_cons, p.line_eq, Text.lines_append p.isLine, ih, List.map_cons]

theorem lines_providesContent (r : InstalledRepository) (provisions : List Provision) :
    Text.lines (r.providesContent provisions) =
      providesCacheFormat :: r.name.text :: provisions.map Provision.body := by
  have hformat : Text.IsLine providesCacheFormat := ⟨by decide, by decide⟩
  have hcontent : r.providesContent provisions = providesCacheFormat ++ "\n" ++
      (r.name.text ++ "\n" ++ String.join (provisions.map Provision.line)) := by
    simp [providesContent, String.append_assoc]
  rw [hcontent, Text.lines_append hformat, Text.lines_append r.name.isLine, lines_provisions]

/-- The entries of provisions, in the order of the list. -/
def entriesOf (r : InstalledRepository) (provisions : List Provision) : List VirtualEntry :=
  provisions.flatMap fun p => p.entries r.name.text

/-- One line more, read or reported. -/
def addLine (r : InstalledRepository) (entries : List VirtualEntry) (line : String) :
    Scan InstalledMemo (List VirtualEntry) := do
  match parseProvision line with
  | .ok p => return entries ++ p.entries r.name.text
  | .error e => do
    Scan.warn (.providesLine line e)
    return entries

theorem foldlM_addLine (provisions : List Provision) (entries : List VirtualEntry)
    (j : Journal InstalledMemo) :
    ((provisions.map Provision.body).foldlM r.addLine entries).on t j =
      (.ok (entries ++ r.entriesOf provisions), j) := by
  induction provisions generalizing entries with
  | nil =>
    rw [entriesOf, List.flatMap_nil, List.append_nil]
    rfl
  | cons p provisions ih =>
    have hfirst : (r.addLine entries p.body).on t j =
        (.ok (entries ++ p.entries r.name.text), j) := by
      unfold addLine
      rw [parseProvision_body]
      rfl
    rw [List.map_cons, List.foldlM_cons, Scan.on_bind_of_ok hfirst, ih, entriesOf, entriesOf,
      List.flatMap_cons, List.append_assoc]

/-- What was written is read as it was meant, and no line is reported. -/
theorem readProvides_providesContent (provisions : List Provision) (j : Journal InstalledMemo) :
    (r.readProvides (r.providesContent provisions)).on t j =
      (.ok (some (r.entriesOf provisions)), j) := by
  have hbodies : (provisions.map Provision.body).filter (fun line => !(Text.trim line).isEmpty) =
      provisions.map Provision.body := by
    rw [List.filter_eq_self]
    intro line hline
    obtain ⟨p, -, rfl⟩ := List.mem_map.1 hline
    simpa using p.trim_body_ne_empty
  have hfold := foldlM_addLine (r := r) (t := t) provisions [] j
  rw [List.nil_append] at hfold
  unfold readProvides
  rw [lines_providesContent]
  simp only [NamesCache.line, List.drop_succ_cons, List.drop_zero, hbodies, List.getElem?_cons_zero,
    List.getElem?_cons_succ, Option.getD_some, bne_self_eq_false, Bool.or_self]
  rw [if_neg Bool.false_ne_true]
  exact Scan.on_bind_of_ok hfold _

end InstalledRepository

end PackageCatalog
