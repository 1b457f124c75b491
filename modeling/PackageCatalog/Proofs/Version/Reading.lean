import PackageCatalog.Version.Parser

/-!
# Versions read back

Reading a version inverts writing it, so a version is known by its text:

    Version.parse s = .ok v ↔ v.text = s                               (Version.parse_eq_ok_iff)

Each reader takes the piece that was written and leaves the rest, provided that the rest does not
start with a character that would carry the piece on.  `Starts p cs` says with what a rest starts.
-/

namespace PackageCatalog

/-- The first character, if there is one, satisfies `p`. -/
def Starts (p : Char → Prop) (cs : List Char) : Prop := ∀ c ∈ cs.head?, p c

theorem starts_nil {p : Char → Prop} : Starts p [] := nofun

theorem starts_cons {p : Char → Prop} {c : Char} (h : p c) (cs : List Char) :
    Starts p (c :: cs) := by
  rintro d ⟨⟩
  exact h

theorem Starts.append {p : Char → Prop} {cs rest : List Char} (hcs : Starts p cs)
    (hrest : Starts p rest) : Starts p (cs ++ rest) := by
  cases cs with
  | nil => exact hrest
  | cons c r => exact hcs

theorem Starts.mono {p q : Char → Prop} {cs : List Char} (h : Starts p cs)
    (hpq : ∀ c, p c → q c) : Starts q cs :=
  fun c hc => hpq c (h c hc)

theorem Starts.takeWhile {q : Char → Prop} {cs : List Char} (h : Starts q cs) (p : Char → Bool) :
    Starts q (cs.takeWhile p) := by
  cases cs with
  | nil => exact h
  | cons c r =>
    rw [List.takeWhile_cons]
    split
    · exact h
    · exact nofun

theorem starts_dropWhile (p : Char → Bool) (cs : List Char) :
    Starts (fun c => p c = false) (cs.dropWhile p) := by
  intro c hc
  have hnot := List.head?_dropWhile_not p cs
  rwa [Option.mem_def.1 hc] at hnot

/-- The characters of a class at the front of a text, and what follows them. -/
theorem takeWhile_dropWhile_append {p : Char → Bool} {word rest : List Char}
    (hword : ∀ c ∈ word, p c = true) (hrest : Starts (fun c => p c = false) rest) :
    (word ++ rest).takeWhile p = word ∧ (word ++ rest).dropWhile p = rest := by
  rw [List.takeWhile_append_of_pos hword, List.dropWhile_append_of_pos hword]
  cases rest with
  | nil => simp
  | cons c r => simp [show p c = false from hrest c rfl]

/-! ## Digits -/

def NoDigit (c : Char) : Prop := c.isDigit = false

theorem readDigits_append (ds : Digits) {rest : List Char} (hrest : Starts NoDigit rest) :
    readDigits (ds.val ++ rest) = (ds, rest) := by
  obtain ⟨htake, hdrop⟩ := takeWhile_dropWhile_append ds.property hrest
  exact Prod.ext (Subtype.ext htake) hdrop

theorem Numeral.read?_append (n : Numeral) {rest : List Char} (hrest : Starts NoDigit rest) :
    Numeral.read? (n.val ++ rest) = some (n, rest) := by
  have hread := readDigits_append ⟨n.val, n.property.2⟩ hrest
  unfold Numeral.read?
  rw [dif_neg (by rw [hread]; exact n.property.1)]
  simp only [hread]

/-! ## Kinds of suffix -/

theorem SuffixKind.isLower_of_mem_text (kind : SuffixKind) :
    ∀ c ∈ kind.text.toList, c.isLower = true := by
  rw [← List.all_eq_true]
  cases kind <;> decide

/-- The kind is read if no letter follows; `p` and the letters `re` are no `pre`. -/
theorem SuffixKind.read?_append (kind : SuffixKind) {rest : List Char}
    (hrest : Starts (fun c => c.isLower = false) rest) :
    SuffixKind.read? (kind.text.toList ++ rest) = some (kind, rest) := by
  cases kind with
  | patch =>
    cases rest with
    | nil => rfl
    | cons c r =>
      have hc : 'r' ≠ c := by
        rintro rfl
        exact absurd (hrest 'r' rfl) (by decide)
      simp [read?, text, Text.dropWord, hc]
  | _ => rfl

namespace Version

/-! ## What the pieces start with -/

theorem starts_renderRevision (revision : Option Numeral) :
    Starts (· = '-') (renderRevision revision) := by
  cases revision with
  | none => exact nofun
  | some n => rintro c ⟨⟩; rfl

theorem starts_renderSuffixes (suffixes : List VersionSuffix) :
    Starts (· = '_') (renderSuffixes suffixes) := by
  cases suffixes with
  | nil => exact nofun
  | cons s r => rintro c ⟨⟩; rfl

theorem starts_renderLetter (letter : Option VersionLetter) :
    Starts (fun c => c.isLower = true) (renderLetter letter) := by
  cases letter with
  | none => exact nofun
  | some c => rintro d ⟨⟩; exact c.property

theorem starts_renderMinors (minors : List Numeral) : Starts (· = '.') (renderMinors minors) := by
  cases minors with
  | nil => exact nofun
  | cons n r => rintro c ⟨⟩; rfl

theorem noDigit_of_isLower {c : Char} (h : c.isLower = true) : NoDigit c := by
  have hlower : 'a'.toNat ≤ c.toNat := of_decide_eq_true (Bool.and_eq_true_iff.1 h).1
  simp only [NoDigit, Char.isDigit, Bool.and_eq_false_iff, decide_eq_false_iff_not]
  right
  intro hdigit
  have hdigit : c.toNat ≤ '9'.toNat := hdigit
  exact absurd (Nat.le_trans hlower hdigit) (by decide)

/-- What may follow the letter of a version. -/
def TailStart (c : Char) : Prop := c = '_' ∨ c = '-'

/-- What may follow the numbers of a version. -/
def LetterStart (c : Char) : Prop := c.isLower = true ∨ TailStart c

theorem TailStart.not_isLower {c : Char} (h : TailStart c) : c.isLower = false := by
  rcases h with rfl | rfl <;> decide

theorem LetterStart.noDigit {c : Char} (h : LetterStart c) : NoDigit c := by
  rcases h with h | rfl | rfl
  · exact noDigit_of_isLower h
  · exact rfl
  · exact rfl

theorem LetterStart.ne_dot {c : Char} (h : LetterStart c) : c ≠ '.' := by
  rintro rfl
  rcases h with h | h | h
  · exact absurd h (by decide)
  · exact absurd h (by decide)
  · exact absurd h (by decide)

/-! ## Pieces read back -/

theorem readMinors_of_starts {rest : List Char} (hrest : Starts (· ≠ '.') rest) :
    readMinors rest = ([], rest) := by
  unfold readMinors
  split
  · next r => exact absurd rfl (hrest '.' rfl)
  · rfl

theorem readMinors_append (minors : List Numeral) {rest : List Char}
    (hrest : Starts LetterStart rest) :
    readMinors (renderMinors minors ++ rest) = (minors, rest) := by
  induction minors with
  | nil => exact readMinors_of_starts (hrest.mono fun _ => LetterStart.ne_dot)
  | cons n ns ih =>
    have hnext : Starts NoDigit (renderMinors ns ++ rest) := by
      refine Starts.append ((starts_renderMinors ns).mono ?_)
        (hrest.mono fun _ => LetterStart.noDigit)
      rintro c rfl
      exact rfl
    have hread := Numeral.read?_append n hnext
    have htext : renderMinors (n :: ns) ++ rest = '.' :: (n.val ++ (renderMinors ns ++ rest)) := by
      simp [renderMinors]
    rw [htext]
    unfold readMinors
    simp only
    split
    · next m rest' hm =>
      rw [hread] at hm
      cases hm
      rw [ih]
    · next hm =>
      rw [hread] at hm
      cases hm

theorem readLetter_append (letter : Option VersionLetter) {rest : List Char}
    (hrest : Starts TailStart rest) :
    readLetter (renderLetter letter ++ rest) = (letter, rest) := by
  cases letter with
  | some c => simp [renderLetter, readLetter, c.property]
  | none =>
    cases rest with
    | nil => rfl
    | cons d r => simp [renderLetter, readLetter, (hrest d rfl).not_isLower]

theorem readSuffixes_of_starts {rest : List Char} (hrest : Starts (· ≠ '_') rest) :
    readSuffixes rest = ([], rest) := by
  unfold readSuffixes
  split
  · next r => exact absurd rfl (hrest '_' rfl)
  · rfl

theorem readSuffixes_append (suffixes : List VersionSuffix) {rest : List Char}
    (hrest : Starts (· = '-') rest) :
    readSuffixes (renderSuffixes suffixes ++ rest) = (suffixes, rest) := by
  induction suffixes with
  | nil =>
    refine readSuffixes_of_starts (hrest.mono ?_)
    rintro c rfl
    decide
  | cons s ss ih =>
    have hnext : Starts TailStart (renderSuffixes ss ++ rest) :=
      Starts.append ((starts_renderSuffixes ss).mono fun _ => Or.inl) (hrest.mono fun _ => Or.inr)
    have hdigits := readDigits_append s.number
      (hnext.mono fun _ h => LetterStart.noDigit (Or.inr h))
    have hkind : SuffixKind.read?
        (s.kind.text.toList ++ (s.number.val ++ (renderSuffixes ss ++ rest))) =
          some (s.kind, s.number.val ++ (renderSuffixes ss ++ rest)) := by
      refine SuffixKind.read?_append s.kind
        (Starts.append ?_ (hnext.mono fun _ => TailStart.not_isLower))
      intro c hc
      have hdigit := s.number.property c (List.mem_of_mem_head? hc)
      cases hlower : c.isLower with
      | false => rfl
      | true =>
        rw [noDigit_of_isLower hlower] at hdigit
        cases hdigit
    have htext : renderSuffixes (s :: ss) ++ rest =
        '_' :: (s.kind.text.toList ++ (s.number.val ++ (renderSuffixes ss ++ rest))) := by
      simp [renderSuffixes]
    rw [htext]
    unfold readSuffixes
    simp only
    split
    · next kind rest' hm =>
      rw [hkind] at hm
      cases hm
      rw [hdigits, ih]
    · next hm =>
      rw [hkind] at hm
      cases hm

theorem readRevision_render (revision : Option Numeral) :
    readRevision (renderRevision revision) = (revision, []) := by
  cases revision with
  | none => rfl
  | some n =>
    have hread : Numeral.read? (n.val ++ []) = some (n, []) := Numeral.read?_append n nofun
    rw [List.append_nil] at hread
    simp [renderRevision, readRevision, hread]

theorem ofChars?_render (v : Version) : ofChars? v.render = some v := by
  obtain ⟨major, minors, letter, suffixes, revision⟩ := v
  have hsuffixes : Starts TailStart (renderSuffixes suffixes ++ renderRevision revision) :=
    Starts.append ((starts_renderSuffixes suffixes).mono fun _ => Or.inl)
      ((starts_renderRevision revision).mono fun _ => Or.inr)
  have hletter : Starts LetterStart
      (renderLetter letter ++ (renderSuffixes suffixes ++ renderRevision revision)) :=
    Starts.append ((starts_renderLetter letter).mono fun _ => Or.inl)
      (hsuffixes.mono fun _ => Or.inr)
  have hminors : Starts NoDigit (renderMinors minors ++
      (renderLetter letter ++ (renderSuffixes suffixes ++ renderRevision revision))) := by
    refine Starts.append ((starts_renderMinors minors).mono ?_)
      (hletter.mono fun _ => LetterStart.noDigit)
    rintro c rfl
    exact rfl
  unfold ofChars? read? render
  simp only [List.append_assoc]
  rw [Numeral.read?_append major hminors, Option.map_some, readMinors_append minors hletter,
    readLetter_append letter hsuffixes,
    readSuffixes_append suffixes (starts_renderRevision revision), readRevision_render]

/-! ## Nothing but what is written is read -/

theorem append_of_readMinors (cs : List Char) :
    renderMinors (readMinors cs).1 ++ (readMinors cs).2 = cs := by
  fun_induction readMinors cs with
  | case1 r n rest hread ns rest' hrec ih =>
    rw [hrec] at ih
    rw [Numeral.append_of_read? hread, ← ih]
    simp [renderMinors]
  | case2 => rfl
  | case3 => rfl

theorem append_of_readLetter (cs : List Char) :
    renderLetter (readLetter cs).1 ++ (readLetter cs).2 = cs := by
  unfold readLetter
  split
  · split <;> rfl
  · rfl

theorem append_of_readSuffixes (cs : List Char) :
    renderSuffixes (readSuffixes cs).1 ++ (readSuffixes cs).2 = cs := by
  fun_induction readSuffixes cs with
  | case1 r kind rest hread suffixes rest' hrec ih =>
    rw [hrec] at ih
    have hrest : (readDigits rest).1.val ++ (renderSuffixes suffixes ++ rest') = rest := by
      rw [ih, append_readDigits]
    have hpiece : kind.text.toList ++
        ((readDigits rest).1.val ++ (renderSuffixes suffixes ++ rest')) = r := by
      rw [hrest, SuffixKind.append_of_read? hread]
    rw [← hpiece]
    simp [renderSuffixes]
  | case2 => rfl
  | case3 => rfl

theorem append_of_readRevision (cs : List Char) :
    renderRevision (readRevision cs).1 ++ (readRevision cs).2 = cs := by
  unfold readRevision
  split
  · next r =>
    split
    · next n rest hread => rw [Numeral.append_of_read? hread]; rfl
    · rfl
  · rfl

theorem append_of_read? {cs rest : List Char} {v : Version} (h : read? cs = some (v, rest)) :
    v.render ++ rest = cs := by
  obtain ⟨⟨major, after⟩, hmajor, hv⟩ := Option.map_eq_some_iff.1 h
  have hminors := append_of_readMinors after
  have hletter := append_of_readLetter (readMinors after).2
  have hsuffixes := append_of_readSuffixes (readLetter (readMinors after).2).2
  have hrevision := append_of_readRevision (readSuffixes (readLetter (readMinors after).2).2).2
  simp only [Prod.mk.injEq] at hv
  obtain ⟨rfl, rfl⟩ := hv
  rw [Numeral.append_of_read? hmajor]
  simp only [render, List.append_assoc]
  rw [hrevision, hsuffixes, hletter, hminors]

theorem ofChars?_eq_some_iff {cs : List Char} {v : Version} :
    ofChars? cs = some v ↔ v.render = cs := by
  constructor
  · intro h
    unfold ofChars? at h
    split at h
    · next w hread =>
      cases h
      have := append_of_read? hread
      rwa [List.append_nil] at this
    · cases h
  · rintro rfl
    exact ofChars?_render v

theorem render_injective {v w : Version} (h : v.render = w.render) : v = w := by
  have hv := ofChars?_render v
  rw [h, ofChars?_render w] at hv
  exact (Option.some.inj hv).symm

@[simp] theorem toList_text (v : Version) : v.text.toList = v.render := String.toList_ofList

theorem text_injective {v w : Version} (h : v.text = w.text) : v = w := by
  apply render_injective
  rw [← toList_text, ← toList_text, h]

/-- A version is read from its text and from no other. -/
theorem parse_eq_ok_iff {s : String} {v : Version} : parse s = .ok v ↔ v.text = s := by
  have hchars : v.render = s.toList ↔ v.text = s := by
    rw [← toList_text, String.toList_inj]
  unfold parse
  constructor
  · intro h
    cases hread : ofChars? s.toList with
    | none =>
      rw [hread] at h
      cases h
    | some w =>
      rw [hread] at h
      cases h
      exact hchars.1 (ofChars?_eq_some_iff.1 hread)
  · intro h
    rw [ofChars?_eq_some_iff.2 (hchars.2 h)]

/-! ## Hyphens -/

theorem starts_render (v : Version) : Starts (fun c => c.isDigit = true) v.render := by
  obtain ⟨⟨ds, hne, hdigits⟩, minors, letter, suffixes, revision⟩ := v
  obtain ⟨d, r, rfl⟩ := List.exists_cons_of_ne_nil hne
  rintro c ⟨⟩
  exact hdigits d List.mem_cons_self

/-- The characters of what precedes the revision. -/
def FrontChar (c : Char) : Prop :=
  c.isDigit = true ∨ c.isLower = true ∨ c = '.' ∨ c = '_'

instance (c : Char) : Decidable (FrontChar c) := by
  unfold FrontChar
  infer_instance

/-- What precedes the revision. -/
def front (v : Version) : List Char :=
  v.major.val ++ renderMinors v.minors ++ renderLetter v.letter ++ renderSuffixes v.suffixes

theorem render_eq (v : Version) : v.render = v.front ++ renderRevision v.revision := rfl

theorem frontChar_of_mem_digits {ds : List Char} (hds : ∀ c ∈ ds, c.isDigit = true) :
    ∀ c ∈ ds, FrontChar c :=
  fun c hc => Or.inl (hds c hc)

theorem frontChar_of_mem_front {v : Version} {c : Char} (h : c ∈ v.front) : FrontChar c := by
  unfold front at h
  simp only [List.mem_append] at h
  rcases h with ((h | h) | h) | h
  · exact frontChar_of_mem_digits v.major.property.2 c h
  · obtain ⟨n, -, hn⟩ := List.mem_flatMap.1 h
    rcases List.mem_cons.1 hn with rfl | hn
    · decide
    · exact frontChar_of_mem_digits n.property.2 c hn
  · cases hletter : v.letter with
    | none =>
      rw [hletter] at h
      cases h
    | some d =>
      rw [hletter] at h
      rw [List.mem_singleton.1 h]
      exact Or.inr (Or.inl d.property)
  · obtain ⟨s, -, hs⟩ := List.mem_flatMap.1 h
    rcases List.mem_cons.1 hs with rfl | hs
    · decide
    · rcases List.mem_append.1 hs with hs | hs
      · exact Or.inr (Or.inl (s.kind.isLower_of_mem_text c hs))
      · exact frontChar_of_mem_digits s.number.property c hs

theorem frontChar_of_mem_render {v : Version} {c : Char} (h : c ∈ v.render) :
    FrontChar c ∨ c = '-' := by
  rw [render_eq, List.mem_append] at h
  rcases h with h | h
  · exact Or.inl (frontChar_of_mem_front h)
  · cases hrevision : v.revision with
    | none =>
      rw [hrevision] at h
      cases h
    | some n =>
      rw [hrevision, renderRevision, List.mem_cons, List.mem_cons] at h
      rcases h with rfl | rfl | h
      · exact Or.inr rfl
      · exact Or.inl (by decide)
      · exact Or.inl (frontChar_of_mem_digits n.property.2 c h)

theorem hyphen_notMem_front (v : Version) : '-' ∉ v.front :=
  fun h => absurd (frontChar_of_mem_front h) (by decide)

/-- The only hyphen of a version is that of its revision, so what follows a hyphen is no version. -/
theorem not_starts_of_render_eq {v : Version} {before after : List Char}
    (h : v.render = before ++ '-' :: after) : ¬ Starts (fun c => c.isDigit = true) after := by
  have hfront := hyphen_notMem_front v
  rw [render_eq] at h
  cases hrevision : v.revision with
  | none =>
    rw [hrevision, renderRevision, List.append_nil] at h
    rw [h] at hfront
    simp at hfront
  | some n =>
    have hrest : '-' ∉ 'r' :: n.val := by
      simpa using fun h : '-' ∈ n.val => absurd (n.property.2 '-' h) (by decide)
    rw [hrevision, renderRevision] at h
    -- the two hyphens are one, since there is none before or behind the one that was written
    have hafter : after = 'r' :: n.val := by
      rcases List.append_eq_append_iff.1 h with ⟨mid, rfl, hmid⟩ | ⟨mid, hmid, hend⟩
      · cases mid with
        | nil => exact (List.cons.inj hmid).2.symm
        | cons c r =>
          rw [List.cons_append, List.cons.injEq] at hmid
          exact absurd (hmid.2 ▸ List.mem_append_right r List.mem_cons_self) hrest
      · cases mid with
        | nil => exact (List.cons.inj hend).2
        | cons c r =>
          rw [List.cons_append, List.cons.injEq] at hend
          rw [hmid, ← hend.1] at hfront
          simp at hfront
    rw [hafter]
    intro hstarts
    exact absurd (hstarts 'r' rfl) (by decide)

end Version

end PackageCatalog
