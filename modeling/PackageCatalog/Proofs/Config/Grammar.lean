import Mathlib.Data.List.DropRight
import PackageCatalog.Config.Assignment
import PackageCatalog.Proofs.Scans
import PackageCatalog.Proofs.Version.Reading

/-!
# The grammar of lists of assignments

    list       = ( blank | comment | assignment )*
    assignment = ( export space+ )?  key = value  space*  comment?  line end

A value stands in quotes of either kind, or it is bare and goes up to the line end or a comment,
less the blanks at its end.  `Lists cs pairs` says that the text `cs` is a list of these
assignments; there is one relation for each piece, between the text and what follows the piece.
Reading accepts the texts of the grammar, and no others, and finds their assignments:

    parseAssignments s = .ok pairs ↔ Lists s.toList pairs               (parseAssignments_iff_lists)
-/

namespace PackageCatalog.Config

/-! ## The grammar -/

def IsKey (key : List Char) : Prop :=
  ∃ c r, key = c :: r ∧ isKeyStart c = true ∧ ∀ d ∈ r, isKeyChar d = true

/-- What may stand before a key. -/
inductive Exporting : List Char → Prop
  | absent : Exporting []
  | word {space : List Char} (hne : space ≠ []) (hspace : ∀ c ∈ space, isSpace c = true) :
    Exporting ("export".toList ++ space)

/-- A text that starts with a value, the value, and what follows it. -/
inductive HasValue : List Char → List Char → List Char → Prop
  | doubleQuoted {value rest : List Char} (hvalue : '"' ∉ value) :
    HasValue ('"' :: (value ++ '"' :: rest)) value rest
  | singleQuoted {value rest : List Char} (hvalue : '\'' ∉ value) :
    HasValue ('\'' :: (value ++ '\'' :: rest)) value rest
  | bare {value blanks rest : List Char}
    (hquote : Starts (fun c => c ≠ '"' ∧ c ≠ '\'') (value ++ blanks))
    (hbare : ∀ c ∈ value ++ blanks, c ≠ '\n' ∧ c ≠ '#')
    (hrest : Starts (fun c => c = '\n' ∨ c = '#') rest)
    (hlast : ∀ c ∈ value.getLast?, Text.isBlank c = false)
    (hblanks : ∀ c ∈ blanks, Text.isBlank c = true) :
    HasValue (value ++ blanks ++ rest) value rest

/-- A comment goes on to the end of its line. -/
def IsComment (cs : List Char) : Prop := ∃ text, cs = '#' :: text ∧ '\n' ∉ text

inductive HasLineEnd : List Char → List Char → Prop
  | lineFeed (rest : List Char) : HasLineEnd ('\n' :: rest) rest
  | carriageReturn (rest : List Char) : HasLineEnd ('\r' :: '\n' :: rest) rest
  | endOfText : HasLineEnd [] []

/-- Space and a comment may stand before the end of a line. -/
def Closes (cs rest : List Char) : Prop :=
  ∃ space comment tail, cs = space ++ (comment ++ tail) ∧ (∀ c ∈ space, isSpace c = true) ∧
    (comment = [] ∨ IsComment comment) ∧ HasLineEnd tail rest

/-- A text that starts with an assignment and the end of its line, and what follows them. -/
def Assigns (cs : List Char) (a : String × String) (rest : List Char) : Prop :=
  ∃ exporting key value written tail, cs = exporting ++ (key ++ '=' :: written) ∧
    Exporting exporting ∧ IsKey key ∧ HasValue written value tail ∧ Closes tail rest ∧
    a = (String.ofList key, String.ofList value)

/-- A text is a list of these assignments. -/
inductive Lists : List Char → List (String × String) → Prop
  | done : Lists [] []
  | blank {c : Char} {cs : List Char} {pairs : List (String × String)}
    (hc : isSpaceOrLineEnd c = true) (h : Lists cs pairs) : Lists (c :: cs) pairs
  | comment {comment rest : List Char} {pairs : List (String × String)}
    (hcomment : IsComment comment) (hrest : Starts (· = '\n') rest) (h : Lists rest pairs) :
    Lists (comment ++ rest) pairs
  | assignment {cs rest : List Char} {a : String × String} {pairs : List (String × String)}
    (ha : Assigns cs a rest) (h : Lists rest pairs) : Lists cs (a :: pairs)

variable {cs rest key value : List Char}

/-! ## Keys -/

theorem isKeyChar_of_isKeyStart {c : Char} (h : isKeyStart c = true) : isKeyChar c = true := by
  unfold isKeyStart at h
  unfold isKeyChar Char.isAlphanum
  rcases Bool.or_eq_true_iff.1 h with h | h
  · rw [h]
    rfl
  · rw [h, Bool.or_true]

theorem IsKey.isKeyChar_of_mem (h : IsKey key) : ∀ c ∈ key, isKeyChar c = true := by
  obtain ⟨c, r, rfl, hc, hr⟩ := h
  exact List.forall_mem_cons.2 ⟨isKeyChar_of_isKeyStart hc, hr⟩

theorem isSpace_eq_false_of_isKeyChar {c : Char} (h : isKeyChar c = true) : isSpace c = false := by
  rw [← Bool.not_eq_true]
  intro hspace
  rcases Bool.or_eq_true_iff.1 hspace with hc | hc
  · rw [beq_iff_eq.1 hc] at h
    exact absurd h (by decide)
  · rw [beq_iff_eq.1 hc] at h
    exact absurd h (by decide)

theorem readKey_append (h : IsKey key) (hrest : Starts (fun c => isKeyChar c = false) rest) :
    readKey (key ++ rest) = some (key, rest) := by
  obtain ⟨c, r, rfl, hc, hr⟩ := h
  obtain ⟨htake, hdrop⟩ := takeWhile_dropWhile_append hr hrest
  rw [List.cons_append, readKey, if_pos hc, htake, hdrop]

theorem readKey_spec (h : readKey cs = some (key, rest)) : cs = key ++ rest ∧ IsKey key := by
  cases cs with
  | nil => cases h
  | cons c r =>
    rw [readKey] at h
    split at h
    · next hc =>
      cases h
      exact ⟨by rw [List.cons_append, List.takeWhile_append_dropWhile],
        c, _, rfl, hc, fun d hd => List.mem_takeWhile_imp hd⟩
    · cases h

/-! ### Exporting -/

/-- What stands behind a word in a text that starts with a key. -/
theorem mem_of_key_eq {word : List Char} {c : Char} (hword : '=' ∉ word)
    (h : key ++ '=' :: rest = word ++ c :: cs) : c ∈ key ∨ c = '=' := by
  rcases List.append_eq_append_iff.1 h with ⟨as, rfl, h'⟩ | ⟨as, rfl, h'⟩
  · cases as with
    | nil => exact .inr (List.cons.inj h').1.symm
    | cons a as =>
      cases (List.cons.inj h').1
      exact absurd (by simp) hword
  · cases as with
    | nil => exact .inr (List.cons.inj h').1
    | cons a as =>
      cases (List.cons.inj h').1
      exact .inl (by simp)

theorem dropExport_key (h : IsKey key) : dropExport (key ++ '=' :: rest) = key ++ '=' :: rest := by
  unfold dropExport
  split
  · next c r hdrop =>
    -- A letter that goes on from the word belongs to the key.
    have hc : isSpace c = false := by
      rcases mem_of_key_eq (by decide) (Text.dropWord_eq_some_iff.1 hdrop) with hc | rfl
      · exact isSpace_eq_false_of_isKeyChar (h.isKeyChar_of_mem c hc)
      · decide
    rw [if_neg (by simp [hc])]
  · rfl

theorem dropExport_append {exporting : List Char} (hexporting : Exporting exporting)
    (h : IsKey key) : dropExport (exporting ++ (key ++ '=' :: rest)) = key ++ '=' :: rest := by
  cases hexporting with
  | absent => exact dropExport_key h
  | @word space hne hspace =>
    have hdrop : Text.dropWord "export".toList
        ("export".toList ++ space ++ (key ++ '=' :: rest)) =
        some (space ++ (key ++ '=' :: rest)) :=
      Text.dropWord_eq_some_iff.2 (List.append_assoc ..)
    obtain ⟨c, r, rfl⟩ := List.exists_cons_of_ne_nil hne
    obtain ⟨hc, hr⟩ := List.forall_mem_cons.1 hspace
    have hstarts : Starts (fun c => isSpace c = false) (key ++ '=' :: rest) := by
      obtain ⟨d, s, rfl, hd, -⟩ := h
      exact starts_cons (isSpace_eq_false_of_isKeyChar (isKeyChar_of_isKeyStart hd)) _
    unfold dropExport
    rw [hdrop]
    show (if isSpace c = true then (r ++ (key ++ '=' :: rest)).dropWhile isSpace else _) = _
    rw [if_pos hc, (takeWhile_dropWhile_append hr hstarts).2]

theorem dropExport_spec (cs : List Char) :
    ∃ exporting, cs = exporting ++ dropExport cs ∧ Exporting exporting := by
  unfold dropExport
  split
  · next c r hdrop =>
    rw [Text.dropWord_eq_some_iff] at hdrop
    split
    · next hc =>
      refine ⟨"export".toList ++ (c :: r.takeWhile isSpace), ?_, .word nofun ?_⟩
      · rw [hdrop, List.append_assoc, List.cons_append, List.takeWhile_append_dropWhile]
      · exact List.forall_mem_cons.2 ⟨hc, fun d hd => List.mem_takeWhile_imp hd⟩
    · exact ⟨[], rfl, .absent⟩
  · exact ⟨[], rfl, .absent⟩

/-! ## Values -/

theorem isBareChar_iff {c : Char} : isBareChar c = true ↔ c ≠ '\n' ∧ c ≠ '#' := by
  simp [isBareChar]

theorem isBareChar_eq_false_iff {c : Char} : isBareChar c = false ↔ c = '\n' ∨ c = '#' := by
  rw [← Bool.not_eq_true, isBareChar_iff, not_and_or, not_not, not_not]

theorem readValue_bare (h : Starts (fun c => c ≠ '"' ∧ c ≠ '\'') cs) : readValue cs =
    some (Text.dropEndWhile Text.isBlank (cs.takeWhile isBareChar), cs.dropWhile isBareChar) := by
  unfold readValue
  split
  · exact absurd rfl (h _ rfl).1
  · exact absurd rfl (h _ rfl).2
  · rfl

/-- What stands before the blanks at the end. -/
theorem dropEndWhile_append {p : Char → Bool} {blanks : List Char}
    (hlast : ∀ c ∈ value.getLast?, p c = false) (hblanks : ∀ c ∈ blanks, p c = true) :
    Text.dropEndWhile p (value ++ blanks) = value := by
  have hfront : Starts (fun c => p c = false) value.reverse := by
    unfold Starts
    rwa [List.head?_reverse]
  have hreverse : ∀ c ∈ blanks.reverse, p c = true := fun c hc => hblanks c (List.mem_reverse.1 hc)
  unfold Text.dropEndWhile
  rw [List.reverse_append, (takeWhile_dropWhile_append hreverse hfront).2, List.reverse_reverse]

theorem dropEndWhile_spec (p : Char → Bool) (cs : List Char) :
    ∃ blanks, cs = Text.dropEndWhile p cs ++ blanks ∧
      (∀ c ∈ (Text.dropEndWhile p cs).getLast?, p c = false) ∧ ∀ c ∈ blanks, p c = true := by
  refine ⟨cs.rtakeWhile p, List.rdropWhile_append_rtakeWhile.symm, fun c hc => ?_,
    fun c => List.mem_rtakeWhile_imp⟩
  obtain ⟨hne, rfl⟩ := List.mem_getLast?_eq_getLast hc
  exact Bool.eq_false_iff.2 (List.rdropWhile_last_not p cs hne)

theorem readValue_eq_some_iff : readValue cs = some (value, rest) ↔ HasValue cs value rest := by
  constructor
  · intro h
    unfold readValue at h
    split at h
    · obtain ⟨rfl, hvalue⟩ := Text.splitOnce_eq_some_iff.1 h
      exact .doubleQuoted hvalue
    · obtain ⟨rfl, hvalue⟩ := Text.splitOnce_eq_some_iff.1 h
      exact .singleQuoted hvalue
    · next hdouble hsingle =>
      obtain ⟨blanks, hbare, hlast, hblanks⟩ :=
        dropEndWhile_spec Text.isBlank (cs.takeWhile isBareChar)
      have hquote : Starts (fun c => c ≠ '"' ∧ c ≠ '\'') cs := by
        cases cs with
        | nil => exact starts_nil
        | cons c r =>
          exact starts_cons ⟨fun hc => hdouble r (hc ▸ rfl), fun hc => hsingle r (hc ▸ rfl)⟩ r
      have hchars : ∀ c ∈ cs.takeWhile isBareChar, c ≠ '\n' ∧ c ≠ '#' :=
        fun c hc => isBareChar_iff.1 (List.mem_takeWhile_imp hc)
      have hstarts := hquote.takeWhile isBareChar
      have hrest := (starts_dropWhile isBareChar cs).mono fun c => isBareChar_eq_false_iff.1
      have hcut := List.takeWhile_append_dropWhile (p := isBareChar) (l := cs)
      cases h
      rw [hbare] at hchars hstarts hcut
      have hvalue := HasValue.bare hstarts hchars hrest hlast hblanks
      rwa [hcut] at hvalue
  · intro h
    cases h with
    | doubleQuoted hvalue => exact Text.splitOnce_eq_some_iff.2 ⟨rfl, hvalue⟩
    | singleQuoted hvalue => exact Text.splitOnce_eq_some_iff.2 ⟨rfl, hvalue⟩
    | @bare _ blanks _ hquote hbare hrest hlast hblanks =>
      have hstarts : Starts (fun c => c ≠ '"' ∧ c ≠ '\'') (value ++ blanks ++ rest) :=
        hquote.append (hrest.mono fun c hc => by rcases hc with rfl | rfl <;> decide)
      obtain ⟨htake, hdrop⟩ := takeWhile_dropWhile_append
        (fun c hc => isBareChar_iff.2 (hbare c hc))
        (hrest.mono fun c => isBareChar_eq_false_iff.2)
      rw [readValue_bare hstarts, htake, hdrop, dropEndWhile_append hlast hblanks]

/-! ## The end of a line -/

theorem dropWhile_comment {text : List Char} (htext : '\n' ∉ text)
    (hrest : Starts (· = '\n') rest) : (text ++ rest).dropWhile (· != '\n') = rest :=
  (takeWhile_dropWhile_append
    (fun _ hc => bne_iff_ne.2 (ne_of_mem_of_not_mem hc htext))
    (hrest.mono fun c hc => by rw [hc]; rfl)).2

/-- A comment ends before the end of its line. -/
theorem isComment_takeWhile (cs : List Char) :
    IsComment ('#' :: cs.takeWhile (· != '\n')) := by
  refine ⟨_, rfl, fun h => ?_⟩
  have hne := List.mem_takeWhile_imp h
  exact absurd hne (by decide)

theorem dropComment_comment {text : List Char} (htext : '\n' ∉ text)
    (hrest : Starts (· = '\n') rest) : dropComment ('#' :: text ++ rest) = rest :=
  dropWhile_comment htext hrest

theorem dropComment_spec (cs : List Char) :
    ∃ comment, cs = comment ++ dropComment cs ∧ (comment = [] ∨ IsComment comment) := by
  unfold dropComment
  split
  · next r =>
    refine ⟨'#' :: r.takeWhile (· != '\n'), ?_, .inr (isComment_takeWhile r)⟩
    rw [List.cons_append, List.takeWhile_append_dropWhile]
  · exact ⟨[], rfl, .inl rfl⟩

theorem HasLineEnd.starts (h : HasLineEnd cs rest) : Starts (fun c => c = '\n' ∨ c = '\r') cs := by
  cases h with
  | lineFeed => exact starts_cons (.inl rfl) _
  | carriageReturn => exact starts_cons (.inr rfl) _
  | endOfText => exact starts_nil

theorem readLineEnd_eq_some_iff : readLineEnd cs = some rest ↔ Closes cs rest := by
  constructor
  · intro h
    obtain ⟨comment, hcut, hcomment⟩ := dropComment_spec (cs.dropWhile isSpace)
    refine ⟨cs.takeWhile isSpace, comment, dropComment (cs.dropWhile isSpace), ?_,
      fun c hc => List.mem_takeWhile_imp hc, hcomment, ?_⟩
    · rw [← hcut, List.takeWhile_append_dropWhile]
    · unfold readLineEnd at h
      split at h
      · next he => cases h; rw [he]; exact .endOfText
      · next he => cases h; rw [he]; exact .lineFeed _
      · next he => cases h; rw [he]; exact .carriageReturn _
      · cases h
  · rintro ⟨space, comment, tail, rfl, hspace, hcomment, hend⟩
    have hstarts : Starts (fun c => isSpace c = false) (comment ++ tail) := by
      rcases hcomment with rfl | ⟨text, rfl, -⟩
      · exact hend.starts.mono fun c hc => by rcases hc with rfl | rfl <;> decide
      · exact starts_cons (by decide) _
    unfold readLineEnd
    rw [(takeWhile_dropWhile_append hspace hstarts).2]
    rcases hcomment with rfl | ⟨text, rfl, htext⟩
    · cases hend <;> rfl
    · cases hend with
      | lineFeed => rw [dropComment_comment htext (starts_cons (by rfl) _)]; rfl
      | carriageReturn =>
        -- The comment takes the carriage return with it.
        have htext' : '\n' ∉ text ++ ['\r'] := by simpa using htext
        have hcut : '#' :: text ++ '\r' :: '\n' :: rest =
            '#' :: (text ++ ['\r']) ++ '\n' :: rest := by simp
        rw [hcut, dropComment_comment htext' (starts_cons (by rfl) _)]
        rfl
      | endOfText => rw [dropComment_comment htext starts_nil]

/-! ## Assignments -/

/-- Once the key is known, the value and the end of the line decide. -/
theorem readAssignment_append {exporting written : List Char} (hexporting : Exporting exporting)
    (hkey : IsKey key) : readAssignment (exporting ++ (key ++ '=' :: written)) =
      match readValue written with
      | none => .error ⟨[], none⟩
      | some (value, r) =>
        match readLineEnd r with
        | none => .error ⟨r.dropWhile isSpace, some .assignmentEnd⟩
        | some rest => .ok ((String.ofList key, String.ofList value), rest) := by
  unfold readAssignment
  rw [dropExport_append hexporting hkey, readKey_append hkey (starts_cons (by rfl) _)]
  rfl

theorem readAssignment_eq_ok_iff {a : String × String} :
    readAssignment cs = .ok (a, rest) ↔ Assigns cs a rest := by
  constructor
  · intro h
    obtain ⟨exporting, hcut, hexporting⟩ := dropExport_spec cs
    unfold readAssignment at h
    split at h
    · cases h
    · next key written hkey =>
      obtain ⟨hkey', iskey⟩ := readKey_spec hkey
      split at h
      · cases h
      · next value tail hvalue =>
        split at h
        · cases h
        · next hend =>
          cases h
          exact ⟨exporting, key, value, written, tail, by rw [← hkey', ← hcut], hexporting, iskey,
            readValue_eq_some_iff.1 hvalue, readLineEnd_eq_some_iff.1 hend, rfl⟩
    · cases h
  · rintro ⟨exporting, key, value, written, tail, rfl, hexporting, hkey, hvalue, hend, rfl⟩
    simp only [readAssignment_append hexporting hkey, readValue_eq_some_iff.2 hvalue,
      readLineEnd_eq_some_iff.2 hend]

theorem starts_assignment {exporting : List Char} (hexporting : Exporting exporting)
    (hkey : IsKey key) (rest : List Char) :
    ∃ c r, exporting ++ (key ++ rest) = c :: r ∧ isKeyStart c = true := by
  obtain ⟨c, r, rfl, hc, -⟩ := hkey
  cases hexporting with
  | absent => exact ⟨c, _, rfl, hc⟩
  | word => exact ⟨'e', _, rfl, by decide⟩

/-! ## Lists of assignments -/

/-- Blanks and comments start with no key, and a key starts with none of them. -/
theorem not_isSpaceOrLineEnd_of_isKeyStart {c : Char} (h : isKeyStart c = true) :
    isSpaceOrLineEnd c = false ∧ c ≠ '#' := by
  constructor
  · rw [← Bool.not_eq_true]
    intro hblank
    simp only [isSpaceOrLineEnd, isSpace, Bool.or_eq_true, beq_iff_eq] at hblank
    rcases hblank with ((rfl | rfl) | rfl) | rfl <;> exact absurd h (by decide)
  · rintro rfl
    exact absurd h (by decide)

theorem readAssignments_nil : readAssignments [] = .ok [] := by
  rw [readAssignments]
  rfl

theorem readAssignments_blank {c : Char} (hc : isSpaceOrLineEnd c = true) (cs : List Char) :
    readAssignments (c :: cs) = readAssignments cs := by
  rw [readAssignments, readAssignments, List.dropWhile_cons_of_pos hc]

theorem readAssignments_comment {text : List Char} (htext : '\n' ∉ text)
    (hrest : Starts (· = '\n') rest) :
    readAssignments ('#' :: text ++ rest) = readAssignments rest := by
  rw [readAssignments]
  show readAssignments ((text ++ rest).dropWhile (· != '\n')) = _
  rw [dropWhile_comment htext hrest]

theorem readAssignments_assignment {exporting : List Char} (hexporting : Exporting exporting)
    (hkey : IsKey key) (rest : List Char) :
    readAssignments (exporting ++ (key ++ rest)) =
      readAssignment (exporting ++ (key ++ rest)) >>=
        fun (a, rest) => (readAssignments rest).map (a :: ·) := by
  obtain ⟨c, r, hcs, hc⟩ := starts_assignment hexporting hkey rest
  obtain ⟨hblank, hcomment⟩ := not_isSpaceOrLineEnd_of_isKeyStart hc
  rw [hcs, readAssignments, List.dropWhile_cons_of_neg (by simp [hblank])]
  split
  · next heq => cases heq
  · next heq => exact absurd (List.cons.inj heq).1 hcomment
  · next heq =>
    cases heq
    split
    · next hread => rw [hread]; rfl
    · next hread => rw [hread]; rfl

theorem Lists.of_dropWhile {pairs : List (String × String)}
    (h : Lists (cs.dropWhile isSpaceOrLineEnd) pairs) : Lists cs pairs := by
  induction cs with
  | nil => exact h
  | cons c cs ih =>
    rw [List.dropWhile_cons] at h
    split at h
    · next hc => exact .blank hc (ih h)
    · exact h

theorem lists_of_readAssignments {pairs : List (String × String)}
    (h : readAssignments cs = .ok pairs) : Lists cs pairs := by
  fun_induction readAssignments cs generalizing pairs with
  | case1 cs hstart =>
    cases h
    exact .of_dropWhile (hstart ▸ .done)
  | case2 cs r hstart ih =>
    have hlists := Lists.comment (isComment_takeWhile r)
      ((starts_dropWhile (· != '\n') r).mono fun c hc => by simpa using hc) (ih h)
    rw [List.cons_append, List.takeWhile_append_dropWhile, ← hstart] at hlists
    exact hlists.of_dropWhile
  | case3 cs c r _ hstart a rest hread ih =>
    cases hrest : readAssignments rest with
    | error stop => rw [hrest] at h; cases h
    | ok found =>
      rw [hrest] at h
      cases h
      have hlists := Lists.assignment (readAssignment_eq_ok_iff.1 hread) (ih hrest)
      rw [← hstart] at hlists
      exact hlists.of_dropWhile
  | case4 => cases h

theorem readAssignments_of_lists {pairs : List (String × String)} (h : Lists cs pairs) :
    readAssignments cs = .ok pairs := by
  induction h with
  | done => exact readAssignments_nil
  | blank hc _ ih => rw [readAssignments_blank hc, ih]
  | comment hcomment hrest _ ih =>
    obtain ⟨text, rfl, htext⟩ := hcomment
    rw [readAssignments_comment htext hrest, ih]
  | assignment ha _ ih =>
    have hread := readAssignment_eq_ok_iff.2 ha
    obtain ⟨exporting, key, value, written, tail, rfl, hexporting, hkey, -⟩ := ha
    rw [readAssignments_assignment hexporting hkey, hread]
    show (readAssignments _).map _ = _
    rw [ih]
    rfl

/-! ## Reading -/

theorem parseAssignments_eq_ok_iff {s : String} {pairs : List (String × String)} :
    parseAssignments s = .ok pairs ↔ readAssignments s.toList = .ok pairs := by
  unfold parseAssignments
  cases readAssignments s.toList with
  | ok found => simp
  | error stop => simp

/-- Reading that fails says what was found in place of assignments. -/
theorem parseAssignments_eq_error_iff {s : String} :
    (∃ found, parseAssignments s = .error (.notAssignments found)) ↔
      ¬ ∃ pairs, parseAssignments s = .ok pairs := by
  unfold parseAssignments
  cases readAssignments s.toList with
  | ok found => simp
  | error stop => simp

/-- A key may start with the letters of the word that may stand before keys. -/
theorem isKey_export {more : List Char} (hmore : ∀ c ∈ more, isKeyChar c = true) :
    IsKey ("export".toList ++ more) := by
  refine ⟨'e', "xport".toList ++ more, rfl, by decide, fun d hd => ?_⟩
  rcases List.mem_append.1 hd with hd | hd
  · exact List.all_eq_true.1 (by decide : "xport".toList.all isKeyChar = true) d hd
  · exact hmore d hd

/-- The first of the assignments found has the key that stands first. -/
theorem head_of_readAssignments {exporting : List Char} (hexporting : Exporting exporting)
    (hkey : IsKey key) {pairs : List (String × String)}
    (h : readAssignments (exporting ++ (key ++ '=' :: rest)) = .ok pairs) :
    ∃ value others, pairs = (String.ofList key, value) :: others := by
  rw [readAssignments_assignment hexporting hkey, readAssignment_append hexporting hkey] at h
  split at h
  · cases h
  · next value tail hvalue =>
    split at h
    · cases h
    · next after hend =>
      cases hothers : readAssignments after with
      | error stop => simp [hothers, bind, Except.bind, Except.map] at h
      | ok others =>
        simp only [hothers, bind, Except.bind, Except.map, Except.ok.injEq] at h
        exact ⟨_, others, h.symm⟩

/-- Reading accepts the lists of assignments, and no other text; the letters `export` at the front
of a key belong to the key. -/
theorem parseAssignments_iff_lists (s : String) :
    (∀ pairs, parseAssignments s = .ok pairs ↔ Lists s.toList pairs) ∧
    ((∃ found, parseAssignments s = .error (.notAssignments found)) ↔
      ¬ ∃ pairs, Lists s.toList pairs) ∧
    ∀ exporting more written pairs, Exporting exporting → (∀ c ∈ more, isKeyChar c = true) →
      s.toList = exporting ++ ("export".toList ++ more ++ '=' :: written) →
      parseAssignments s = .ok pairs →
      ∃ value others, pairs = (String.ofList ("export".toList ++ more), value) :: others := by
  have hreads : ∀ pairs, parseAssignments s = .ok pairs ↔ Lists s.toList pairs := fun pairs =>
    parseAssignments_eq_ok_iff.trans ⟨lists_of_readAssignments, readAssignments_of_lists⟩
  refine ⟨hreads, ?_, ?_⟩
  · rw [parseAssignments_eq_error_iff, exists_congr hreads]
  · intro exporting more written pairs hexporting hmore hs hpairs
    rw [parseAssignments_eq_ok_iff, hs] at hpairs
    exact head_of_readAssignments hexporting (isKey_export hmore) hpairs

theorem parseAssignments_exported :
    (∀ c ∈ "ed".toList, isKeyChar c = true) ∧
    parseAssignments "export exported=\"a#b\"  # c\r\nexport=d \n" =
      .ok [("exported", "a#b"), ("export", "d")] ∧
    Lists "export exported=\"a#b\"  # c\r\nexport=d \n".toList
      [("exported", "a#b"), ("export", "d")] ∧
    ∃ value others, [("exported", "a#b"), ("export", "d")] =
      (String.ofList ("export".toList ++ "ed".toList), value) :: others := by
  have hread : (parseAssignments "export exported=\"a#b\"  # c\r\nexport=d \n").toOption =
      some [("exported", "a#b"), ("export", "d")] := by decide +kernel
  have hpairs := Scan.toOption_eq_some_iff.1 hread
  obtain ⟨hreads, -, hkept⟩ :=
    parseAssignments_iff_lists "export exported=\"a#b\"  # c\r\nexport=d \n"
  have hkey : ∀ c ∈ "ed".toList, isKeyChar c = true := List.all_eq_true.1 (by decide)
  exact ⟨hkey, hpairs, (hreads _).1 hpairs,
    hkept "export ".toList "ed".toList "\"a#b\"  # c\r\nexport=d \n".toList _
      (@Exporting.word [' '] nofun (List.all_eq_true.1 (by decide))) hkey (by decide) hpairs⟩

end PackageCatalog.Config
