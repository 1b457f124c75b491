import PackageCatalog.Keyword
import PackageCatalog.Name.Basic
import PackageCatalog.Proofs.Scans
import PackageCatalog.Proofs.Version.Grammar

/-!
# Keywords that are read, written and looked up

    -*     or     ( ~ | - )?  name          with the name of an architecture
    name = [A-Z a-z 0-9 _] [A-Z a-z 0-9 _ -]*

The words of this language (`grammar`) are read as keywords, and no other text is; a keyword is
written as the text from which it was read:

    parse s = .ok k ↔ k.Readable ∧ k.text = s                          (parse_eq_ok_iff)
    Writes text grammar                                                (writes_text)

What a line gives an architecture is said by its words (`Gives`): the first one that names the
architecture, and without one `-*`, wherever it stands.  The look-up finds just this
(`stabilityFor_eq_iff`).  Where no architecture is named twice, the order of the words does not
matter (`Gives.perm`).
-/

namespace PackageCatalog.Keyword

open Version (oneOf word Writes)
open scoped Computability

/-! ## The language -/

def archStart : Language Char := oneOf 'A' 'Z' + oneOf 'a' 'z' + oneOf '0' '9' + word "_"

def archChar : Language Char := archStart + word "-"

def archName : Language Char := archStart * archChar∗

def grammar : Language Char := word "-*" + (1 + word "~" + word "-") * archName

theorem isUpper_iff (c : Char) : c.isUpper = true ↔ 'A' ≤ c ∧ c ≤ 'Z' := by
  show decide _ = true ↔ _
  rw [decide_eq_true_iff]
  exact Iff.rfl

theorem writes_archStart :
    Writes (fun c : { c : Char // isNameStart c = true } => [c.val]) archStart :=
  (((Version.writes_oneOf isUpper_iff).or (Version.writes_oneOf Version.isLower_iff)).or
    (Version.writes_oneOf Version.isDigit_iff)).or (Version.writes_single rfl)

theorem isArchText_cons {c : Char} {r : List Char} : isArchText (c :: r) = true ↔
    isNameStart c = true ∧ ∀ d ∈ r, (isNameStart d || d == '-') = true := by
  rw [← List.all_eq_true]
  exact Bool.and_eq_true_iff

theorem writes_archName :
    Writes (Subtype.val : { cs : List Char // isArchText cs = true } → List Char) archName := by
  refine (writes_archStart.mul (writes_archStart.or (Version.writes_single rfl)).run).congr ?_ ?_
  · rintro ⟨⟨c, hc⟩, ⟨r, hr⟩⟩
    exact ⟨⟨c :: r, isArchText_cons.2 ⟨hc, hr⟩⟩, rfl⟩
  · rintro ⟨cs, hcs⟩
    cases cs with
    | nil => cases hcs
    | cons c r =>
      obtain ⟨hc, hr⟩ := isArchText_cons.1 hcs
      exact ⟨(⟨c, hc⟩, ⟨r, hr⟩), rfl⟩

/-! ## Reading and writing -/

/-- What can be read: `-*`, and the keywords of architectures. -/
inductive Readable : Keyword → Prop where
  | every : Readable ⟨"*", .disabledAll⟩
  | own {arch : String} {stability : Stability} (hstability : stability ≠ .disabledAll)
      (harch : isArchText arch.toList = true) : Readable ⟨arch, stability⟩

theorem forArch?_eq_some_iff {stability : Stability} {cs : List Char} {k : Keyword} :
    forArch? stability cs = some k ↔
      isArchText cs = true ∧ k = ⟨String.ofList cs, stability⟩ := by
  unfold forArch?
  split
  · next harch =>
    rw [Option.some_inj]
    exact ⟨fun h => ⟨harch, h.symm⟩, fun h => h.2.symm⟩
  · next hnot => exact ⟨nofun, fun h => absurd h.1 hnot⟩

theorem Readable.ofChars?_text {k : Keyword} (h : k.Readable) : ofChars? k.text.toList = some k := by
  cases h with
  | every => rfl
  | @own arch stability hstability harch =>
    obtain ⟨c, r, hcons⟩ : ∃ c r, arch.toList = c :: r := by
      cases hcs : arch.toList with
      | nil => rw [hcs] at harch; cases harch
      | cons c r => exact ⟨c, r, rfl⟩
    have hc : isNameStart c = true := (isArchText_cons.1 (hcons ▸ harch)).1
    have hread : forArch? stability arch.toList = some ⟨arch, stability⟩ :=
      forArch?_eq_some_iff.2 ⟨harch, by rw [String.ofList_toList]⟩
    cases stability with
    | stable =>
      -- a name does not start with a mark
      show ofChars? arch.toList = _
      rw [hcons] at hread ⊢
      unfold ofChars?
      split
      · next heq => cases heq; exact absurd hc (by decide)
      · next heq => cases heq; exact absurd hc (by decide)
      · next heq => cases heq; exact absurd hc (by decide)
      · exact hread
    | testing =>
      show ofChars? ("~" ++ arch).toList = _
      rw [String.toList_append]
      exact hread
    | disabled =>
      -- nor with the star of `-*`
      show ofChars? ("-" ++ arch).toList = _
      rw [String.toList_append, show "-".toList = ['-'] from rfl, List.singleton_append]
      unfold ofChars?
      split
      · next heq =>
        rw [hcons] at heq
        cases heq
        exact absurd hc (by decide)
      · next heq => cases heq
      · next heq =>
        cases heq
        exact hread
      · next hne => exact absurd rfl (hne _)
    | disabledAll => exact absurd rfl hstability

theorem readable_of_ofChars? {cs : List Char} {k : Keyword} (h : ofChars? cs = some k) :
    k.Readable ∧ k.text.toList = cs := by
  unfold ofChars? at h
  split at h
  · cases h
    exact ⟨.every, rfl⟩
  · obtain ⟨harch, rfl⟩ := forArch?_eq_some_iff.1 h
    exact ⟨.own nofun (by simpa using harch), by simp [text]⟩
  · obtain ⟨harch, rfl⟩ := forArch?_eq_some_iff.1 h
    exact ⟨.own nofun (by simpa using harch), by simp [text]⟩
  · obtain ⟨harch, rfl⟩ := forArch?_eq_some_iff.1 h
    exact ⟨.own nofun (by simpa using harch), by simp [text]⟩

theorem parse_eq_ok_iff {s : String} {k : Keyword} :
    parse s = .ok k ↔ k.Readable ∧ k.text = s := by
  have hparse : parse s = .ok k ↔ ofChars? s.toList = some k := by
    unfold parse
    cases ofChars? s.toList <;> simp
  rw [hparse]
  constructor
  · intro h
    obtain ⟨hread, htext⟩ := readable_of_ofChars? h
    exact ⟨hread, String.toList_inj.1 htext⟩
  · rintro ⟨hread, rfl⟩
    exact hread.ofChars?_text

theorem parse_text {k : Keyword} (h : k.Readable) : parse k.text = .ok k :=
  parse_eq_ok_iff.2 ⟨h, rfl⟩

theorem parse_eq_error_iff {s : String} {e : Error} :
    parse s = .error e ↔ e = .invalidKeyword s ∧ ¬ ∃ k, parse s = .ok k := by
  unfold parse
  cases ofChars? s.toList <;> simp [eq_comm]

theorem writes_text :
    Writes (fun k : { k : Keyword // k.Readable } => k.val.text.toList) grammar := by
  intro cs
  constructor
  · rintro (h | ⟨mark, hmark, name, hname, rfl⟩)
    · exact ⟨⟨_, .every⟩, h.symm⟩
    · obtain ⟨⟨arch, harch⟩, rfl⟩ := (writes_archName name).1 hname
      have hread (stability : Stability) (h : stability ≠ .disabledAll) :
          Readable ⟨String.ofList arch, stability⟩ := .own h (by simpa using harch)
      rcases hmark with (rfl | rfl) | rfl
      · exact ⟨⟨_, hread .stable nofun⟩, by simp [text]⟩
      · exact ⟨⟨_, hread .testing nofun⟩, by simp [text]⟩
      · exact ⟨⟨_, hread .disabled nofun⟩, by simp [text]⟩
  · rintro ⟨⟨k, hk⟩, rfl⟩
    cases hk with
    | every => exact .inl rfl
    | @own arch stability hstability harch =>
      refine .inr ?_
      have hname : arch.toList ∈ archName := (writes_archName _).2 ⟨⟨_, harch⟩, rfl⟩
      cases stability with
      | stable => exact ⟨[], .inl (.inl rfl), _, hname, rfl⟩
      | testing => exact ⟨_, .inl (.inr rfl), _, hname, String.toList_append.symm⟩
      | disabled => exact ⟨_, .inr rfl, _, hname, String.toList_append.symm⟩
      | disabledAll => exact absurd rfl hstability

theorem exists_parse_iff (s : String) : (∃ k, parse s = .ok k) ↔ s.toList ∈ grammar := by
  rw [writes_text s.toList]
  constructor
  · rintro ⟨k, hk⟩
    obtain ⟨hread, rfl⟩ := parse_eq_ok_iff.1 hk
    exact ⟨⟨k, hread⟩, rfl⟩
  · rintro ⟨⟨k, hread⟩, htext⟩
    exact ⟨k, parse_eq_ok_iff.2 ⟨hread, String.toList_inj.1 htext⟩⟩

/-! ## Lines -/

/-- A line is read as the keywords of which it is made. -/
theorem parseList_eq_ok_iff {line : String} {ks : List Keyword} :
    parseList line = .ok ks ↔ Text.words line = ks.map text ∧ ∀ k ∈ ks, k.Readable := by
  unfold parseList
  generalize Text.words line = ws
  induction ws generalizing ks with
  | nil => cases ks <;> simp [pure, Except.pure]
  | cons w ws ih =>
    rw [List.mapM_cons, Scan.bind_eq_ok_iff]
    constructor
    · rintro ⟨k, hk, h⟩
      obtain ⟨later, hlater, h⟩ := Scan.bind_eq_ok_iff.1 h
      cases h
      obtain ⟨hread, rfl⟩ := parse_eq_ok_iff.1 hk
      obtain ⟨rfl, hreads⟩ := ih.1 hlater
      exact ⟨rfl, List.forall_mem_cons.2 ⟨hread, hreads⟩⟩
    · rintro ⟨hws, hreads⟩
      cases ks with
      | nil => cases hws
      | cons k later =>
        obtain ⟨rfl, hlater⟩ := List.cons.inj hws
        obtain ⟨hread, hreads⟩ := List.forall_mem_cons.1 hreads
        exact ⟨k, parse_text hread, Scan.bind_eq_ok_iff.2 ⟨later, ih.2 ⟨hlater, hreads⟩, rfl⟩⟩

theorem exists_parseList_iff {line : String} :
    (∃ ks, parseList line = .ok ks) ↔ ∀ w ∈ Text.words line, w.toList ∈ grammar := by
  constructor
  · rintro ⟨ks, hks⟩ w hw
    obtain ⟨k, -, hk⟩ := (Scan.mapM_spec hks).1 w hw
    exact (exists_parse_iff w).1 ⟨k, hk⟩
  · intro h
    exact Scan.mapM_isOk fun w hw => (exists_parse_iff w).2 (h w hw)

/-! ## Looking up -/

/-- The word is a keyword of the architecture. -/
def Marks (w arch : String) (stability : Stability) : Prop :=
  parse w = .ok ⟨arch, stability⟩ ∧ stability ≠ .disabledAll

/-- What the words of a line give an architecture. -/
inductive Gives (ws : List String) (arch : String) : Option Stability → Prop where
  /-- The first of its keywords decides. -/
  | own {before after : List String} {w : String} {stability : Stability}
      (hws : ws = before ++ w :: after) (hw : Marks w arch stability)
      (hfirst : ∀ w' ∈ before, ∀ other, ¬ Marks w' arch other) : Gives ws arch (some stability)
  | every (hnone : ∀ w ∈ ws, ∀ other, ¬ Marks w arch other) (hevery : "-*" ∈ ws) :
      Gives ws arch (some .disabledAll)
  | nothing (hnone : ∀ w ∈ ws, ∀ other, ¬ Marks w arch other) (hevery : "-*" ∉ ws) :
      Gives ws arch none

section
variable {arch : String} {k : Keyword} {ks : List Keyword} {ws ws' : List String}
  {found : Option Stability}

theorem marks_text_iff (h : k.Readable) {stability : Stability} :
    Marks k.text arch stability ↔ k = ⟨arch, stability⟩ ∧ stability ≠ .disabledAll := by
  unfold Marks
  rw [parse_text h, Except.ok.injEq]

/-- The look-up goes for these keywords first. -/
def isOwn (arch : String) (k : Keyword) : Bool := k.stability != .disabledAll && k.arch == arch

theorem isOwn_iff (h : k.Readable) :
    isOwn arch k = true ↔ ∃ stability, Marks k.text arch stability := by
  simp only [isOwn, marks_text_iff h, Bool.and_eq_true, bne_iff_ne, beq_iff_eq]
  constructor
  · rintro ⟨hstability, rfl⟩
    exact ⟨k.stability, rfl, hstability⟩
  · rintro ⟨stability, rfl, hstability⟩
    exact ⟨hstability, rfl⟩

theorem not_isOwn_iff (h : k.Readable) :
    isOwn arch k = false ↔ ∀ other, ¬ Marks k.text arch other := by
  rw [← not_exists, ← isOwn_iff h, Bool.not_eq_true]

theorem find?_isOwn_eq_none_iff (h : ∀ k ∈ ks, k.Readable) : ks.find? (isOwn arch) = none ↔
    ∀ w ∈ ks.map text, ∀ other, ¬ Marks w arch other := by
  rw [List.find?_eq_none, List.forall_mem_map]
  refine forall₂_congr fun k hk => ?_
  rw [← not_isOwn_iff (h k hk), Bool.not_eq_true]

theorem text_eq_every_iff (h : k.Readable) : k.text = "-*" ↔ k.stability = .disabledAll := by
  constructor
  · intro htext
    have hparse := parse_text h
    rw [htext] at hparse
    cases hparse
    rfl
  · intro hstability
    unfold text
    rw [hstability]

/-- Behind the keywords of the architecture there is only `-*` to look for. -/
theorem stabilityFor_eq (h : ∀ k ∈ ks, k.Readable) (arch : String) : stabilityFor ks arch =
    ((ks.find? (isOwn arch)).map stability).or
      (if "-*" ∈ ks.map text then some .disabledAll else none) := by
  have hevery : (ks.find? fun k => k.stability == .disabledAll).map stability =
      if "-*" ∈ ks.map text then some .disabledAll else none := by
    cases hfind : ks.find? fun k => k.stability == .disabledAll with
    | some k =>
      have hk : k.stability = .disabledAll := by simpa using List.find?_some hfind
      have hmem := List.mem_of_find?_eq_some hfind
      rw [if_pos (List.mem_map.2 ⟨k, hmem, (text_eq_every_iff (h k hmem)).2 hk⟩)]
      exact congrArg some hk
    | none =>
      rw [if_neg]
      · rfl
      · intro hmem
        obtain ⟨k, hk, htext⟩ := List.mem_map.1 hmem
        exact List.find?_eq_none.1 hfind k hk (by simp [(text_eq_every_iff (h k hk)).1 htext])
  rw [← hevery, ← Option.map_or]
  rfl

/-- The look-up finds what the words of the line give, and nothing else. -/
theorem stabilityFor_eq_iff (h : ∀ k ∈ ks, k.Readable) :
    stabilityFor ks arch = found ↔ Gives (ks.map text) arch found := by
  rw [stabilityFor_eq h]
  constructor
  · rintro rfl
    cases hown : ks.find? (isOwn arch) with
    | some k =>
      obtain ⟨hk, before, after, rfl, hfirst⟩ := List.find?_eq_some_iff_append.1 hown
      have hread : k.Readable := h k (by simp)
      obtain ⟨stability, hmarks⟩ := (isOwn_iff hread).1 hk
      obtain ⟨rfl, -⟩ := (marks_text_iff hread).1 hmarks
      refine .own List.map_append hmarks ?_
      rw [List.forall_mem_map]
      intro k' hk'
      exact (not_isOwn_iff (h k' (by simp [hk']))).1 (by simpa using hfirst k' hk')
    | none =>
      have hnone := (find?_isOwn_eq_none_iff h).1 hown
      rw [Option.map_none, Option.none_or]
      split
      · next hevery => exact .every hnone hevery
      · next hevery => exact .nothing hnone hevery
  · intro hgives
    cases hgives with
    | own hws hw hfirst =>
      obtain ⟨before, rest, rfl, rfl, hrest⟩ := List.map_eq_append_iff.1 hws
      obtain ⟨k, after, rfl, rfl, -⟩ := List.map_eq_cons_iff.1 hrest
      have hread : k.Readable := h k (by simp)
      have hfind : (before ++ k :: after).find? (isOwn arch) = some k := by
        refine List.find?_eq_some_iff_append.2
          ⟨(isOwn_iff hread).2 ⟨_, hw⟩, before, after, rfl, fun k' hk' => ?_⟩
        rw [(not_isOwn_iff (h k' (by simp [hk']))).2 (hfirst _ (List.mem_map_of_mem hk'))]
        rfl
      rw [hfind, ((marks_text_iff hread).1 hw).1]
      rfl
    | every hnone hevery =>
      rw [(find?_isOwn_eq_none_iff h).2 hnone, if_pos hevery]
      rfl
    | nothing hnone hevery =>
      rw [(find?_isOwn_eq_none_iff h).2 hnone, if_neg hevery]
      rfl

/-! ## The order of the words -/

/-- No architecture has two keywords. -/
def NamesOnce (ws : List String) : Prop :=
  ws.Pairwise fun w w' => ∀ arch stability other, Marks w arch stability → ¬ Marks w' arch other

theorem NamesOnce.of_perm (h : NamesOnce ws) (hperm : ws.Perm ws') : NamesOnce ws' :=
  hperm.pairwise h fun hw arch stability other hw' hw'' => hw arch other stability hw'' hw'

/-- For keywords that were read this can be tested. -/
theorem namesOnce_text_iff (h : ∀ k ∈ ks, k.Readable) : NamesOnce (ks.map text) ↔
    ((ks.filter (·.stability != .disabledAll)).map Keyword.arch).Nodup := by
  unfold NamesOnce List.Nodup
  rw [List.pairwise_map, List.pairwise_map, List.pairwise_filter]
  refine List.Pairwise.iff_of_mem fun {k k'} hk hk' => ?_
  simp only [marks_text_iff (h k hk), marks_text_iff (h k' hk'), bne_iff_ne]
  constructor
  · rintro hmarks hstability hstability' harch
    exact hmarks k.arch _ _ ⟨rfl, hstability⟩ ⟨harch ▸ rfl, hstability'⟩
  · rintro hdiffer arch stability other ⟨rfl, hstability⟩ ⟨rfl, hstability'⟩
    exact hdiffer hstability hstability' rfl

/-- Where every architecture has at most one keyword, that is the first one in any order. -/
theorem Gives.perm (h : Gives ws arch found) (honce : NamesOnce ws) (hperm : ws.Perm ws') :
    Gives ws' arch found := by
  cases h with
  | @own _ _ w _ hws hw hfirst =>
    have hmem : w ∈ ws' := hperm.subset (by simp [hws])
    obtain ⟨before, after, rfl⟩ := List.mem_iff_append.1 hmem
    refine .own rfl hw fun w' hw' other hmarks => ?_
    have hpair := (List.pairwise_append.1 (honce.of_perm hperm)).2.2 w' hw' w List.mem_cons_self
    exact hpair arch other _ hmarks hw
  | every hnone hevery =>
    exact .every (fun w hw => hnone w (hperm.mem_iff.2 hw)) (hperm.mem_iff.1 hevery)
  | nothing hnone hevery =>
    exact .nothing (fun w hw => hnone w (hperm.mem_iff.2 hw)) (mt hperm.mem_iff.2 hevery)

end

/-- The words of the grammar are keywords, and are written as they were read.  A line of them gives
an architecture what the first word that names it says, or what `-*` does; any other order of the
words gives the same, unless some architecture is named twice. -/
theorem reads_writes_looksUp (s line : String) :
    ((∃ k, parse s = .ok k) ↔ s.toList ∈ grammar) ∧
    (s.toList ∉ grammar → parse s = .error (.invalidKeyword s)) ∧
    (∀ k, parse s = .ok k → k.text = s ∧ parse k.text = .ok k) ∧
    ∀ ks, parseList line = .ok ks →
      (∀ arch found, stabilityFor ks arch = found ↔ Gives (Text.words line) arch found) ∧
      (NamesOnce (Text.words line) → ∀ line', (Text.words line).Perm (Text.words line') →
        ∃ ks', parseList line' = .ok ks' ∧
          ∀ arch, stabilityFor ks' arch = stabilityFor ks arch) := by
  refine ⟨exists_parse_iff s, fun hs => ?_, fun k hk => ?_, fun ks hks => ?_⟩
  · exact parse_eq_error_iff.2 ⟨rfl, mt (exists_parse_iff s).1 hs⟩
  · obtain ⟨-, rfl⟩ := parse_eq_ok_iff.1 hk
    exact ⟨rfl, hk⟩
  · obtain ⟨hwords, hreads⟩ := parseList_eq_ok_iff.1 hks
    have hgives (arch : String) (found : Option Stability) :
        stabilityFor ks arch = found ↔ Gives (Text.words line) arch found := by
      rw [hwords]
      exact stabilityFor_eq_iff hreads
    refine ⟨hgives, fun honce line' hperm => ?_⟩
    obtain ⟨ks', hks'⟩ : ∃ ks', parseList line' = .ok ks' :=
      exists_parseList_iff.2 fun w hw => exists_parseList_iff.1 ⟨ks, hks⟩ w (hperm.mem_iff.2 hw)
    obtain ⟨hwords', hreads'⟩ := parseList_eq_ok_iff.1 hks'
    refine ⟨ks', hks', fun arch => (stabilityFor_eq_iff hreads').2 ?_⟩
    rw [← hwords']
    exact ((hgives arch _).1 rfl).perm honce hperm

/-- The star stands first in one line and in the middle of the other. -/
theorem looksUp_mixedLine :
    ∃ ks, parseList "-* ~amd64 -x86-fbsd" = .ok ks ∧
      NamesOnce (Text.words "-* ~amd64 -x86-fbsd") ∧
      (Text.words "-* ~amd64 -x86-fbsd").Perm (Text.words "-x86-fbsd -* ~amd64") ∧
      ∃ ks', parseList "-x86-fbsd -* ~amd64" = .ok ks' ∧
        stabilityFor ks' "amd64" = some .testing ∧
        stabilityFor ks' "x86-fbsd" = some .disabled ∧
        stabilityFor ks' "ppc" = some .disabledAll := by
  have hks : parseList "-* ~amd64 -x86-fbsd" =
      .ok [⟨"*", .disabledAll⟩, ⟨"amd64", .testing⟩, ⟨"x86-fbsd", .disabled⟩] := by
    decide +kernel
  obtain ⟨hwords, hreads⟩ := parseList_eq_ok_iff.1 hks
  have honce : NamesOnce (Text.words "-* ~amd64 -x86-fbsd") := by
    rw [hwords]
    exact (namesOnce_text_iff hreads).2 (by decide)
  have hperm : (Text.words "-* ~amd64 -x86-fbsd").Perm (Text.words "-x86-fbsd -* ~amd64") := by
    decide +kernel
  obtain ⟨ks', hks', hsame⟩ :=
    ((reads_writes_looksUp "-*" "-* ~amd64 -x86-fbsd").2.2.2 _ hks).2 honce _ hperm
  refine ⟨_, hks, honce, hperm, ks', hks', ?_, ?_, ?_⟩
  · rw [hsame]
    decide
  · rw [hsame]
    decide
  · rw [hsame]
    decide

end PackageCatalog.Keyword
