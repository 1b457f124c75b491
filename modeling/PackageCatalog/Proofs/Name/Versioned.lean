import PackageCatalog.Name.Versioned
import PackageCatalog.Proofs.Files.Paths
import PackageCatalog.Proofs.Version.Reading

/-!
# Names taken apart

    QualifiedName.parse n.text = .ok n                                 (QualifiedName.parse_text)
    splitVersioned s = .ok (p, v) ↔ s = entryName p v                  (splitVersioned_eq_ok_iff)

No category holds a slash, so the slash of a qualified name is the only one.

No version has a digit behind a hyphen, and each starts with one.  So the hyphen between a package
and a version is the only one that separates a version from what precedes it, and the first hyphen
that separates a name from a version hides no other reading (`splitVersioned_inverts_joining`).
-/

namespace PackageCatalog

/-! ## Qualified names -/

theorem QualifiedName.parse_text (n : QualifiedName) : parse n.text = .ok n := by
  have hcut : Text.cut? '/' n.text = some (n.category.text, n.package.text) := by
    unfold Text.cut?
    rw [Text.splitOnce_eq_some_iff.2 ⟨(by simp [QualifiedName.text] :
      n.text.toList = n.category.text.toList ++ '/' :: n.package.text.toList),
      n.category.isName.slash⟩]
    simp
  unfold parse
  rw [hcut]
  simp only
  rw [Category.parse_eq_ok_iff.2 rfl, PackageName.parse_eq_ok_iff.2 rfl]
  rfl

theorem Category.text_inj {c d : Category} : c.text = d.text ↔ c = d := by
  cases c
  cases d
  simp

theorem PackageName.text_inj {p q : PackageName} : p.text = q.text ↔ p = q := by
  cases p
  cases q
  simp

theorem UseFlag.text_inj {f g : UseFlag} : f.text = g.text ↔ f = g := by
  cases f
  cases g
  simp

/-- What is no flag is not the text of one. -/
theorem UseFlag.text_ne_of_parse {s : String} {e : Error} (h : parse s = .error e) (f : UseFlag) :
    f.text ≠ s := fun hs => by
  rw [parse_eq_ok_iff.2 hs] at h
  cases h

theorem QualifiedName.text_injective {n m : QualifiedName} (h : n.text = m.text) : n = m := by
  have hread := n.parse_text
  rw [h, m.parse_text] at hread
  exact (Except.ok.inj hread).symm

theorem QualifiedName.text_inj {n m : QualifiedName} : n.text = m.text ↔ n = m :=
  ⟨text_injective, congrArg text⟩

/-! ## Versioned names -/

theorem toList_entryName (p : PackageName) (v : Version) :
    (entryName p v).toList = p.text.toList ++ '-' :: v.render := by
  simp [entryName]

/-- The part of a list that precedes another is empty or starts with the first character. -/
theorem exists_append_eq_cons_iff {c : Char} {r rest : List Char} {P : List Char → Prop} :
    (∃ mid, P mid ∧ c :: r = mid ++ rest) ↔
      (P [] ∧ c :: r = rest) ∨ ∃ mid, P (c :: mid) ∧ r = mid ++ rest := by
  constructor
  · rintro ⟨mid, hP, hmid⟩
    cases mid with
    | nil => exact Or.inl ⟨hP, hmid⟩
    | cons d mid =>
      obtain ⟨rfl, rfl⟩ := List.cons.inj hmid
      exact Or.inr ⟨mid, hP, rfl⟩
  · rintro (⟨hP, hrest⟩ | ⟨mid, hP, rfl⟩)
    · exact ⟨[], hP, hrest⟩
    · exact ⟨c :: mid, hP, rfl⟩

theorem splitVersionedFrom_cons (before : List Char) (c : Char) (r : List Char) :
    splitVersionedFrom before (c :: r) =
      if c = '-' then
        if h : isPackageText (String.ofList before.reverse) = true then
          match Version.ofChars? r with
          | some v => some (⟨_, h⟩, v)
          | none => splitVersionedFrom (c :: before) r
        else splitVersionedFrom (c :: before) r
      else splitVersionedFrom (c :: before) r := rfl

theorem splitVersionedFrom_eq_some_iff {before cs : List Char} {p : PackageName} {v : Version} :
    splitVersionedFrom before cs = some (p, v) ↔
      ∃ mid, p.text.toList = before.reverse ++ mid ∧ cs = mid ++ '-' :: v.render := by
  induction cs generalizing before with
  | nil => simp [splitVersionedFrom]
  | cons c r ih =>
    rw [exists_append_eq_cons_iff (P := fun mid => p.text.toList = before.reverse ++ mid)]
    have hlater : splitVersionedFrom (c :: before) r = some (p, v) ↔
        ∃ mid, p.text.toList = before.reverse ++ c :: mid ∧ r = mid ++ '-' :: v.render := by
      rw [ih]
      simp
    rw [← hlater, List.append_nil, splitVersionedFrom_cons]
    -- here the name is separated from a version, or it is separated later
    have hnever : ¬ (p.text.toList = before.reverse ∧ c :: r = '-' :: v.render) →
        (splitVersionedFrom (c :: before) r = some (p, v) ↔
          (p.text.toList = before.reverse ∧ c :: r = '-' :: v.render) ∨
            splitVersionedFrom (c :: before) r = some (p, v)) :=
      fun h => (or_iff_right h).symm
    split
    · next hc =>
      split
      · next hname =>
        cases hread : Version.ofChars? r with
        | none =>
          refine hnever fun ⟨_, hr⟩ => ?_
          rw [(List.cons.inj hr).2, Version.ofChars?_render] at hread
          cases hread
        | some w =>
          have hw := Version.ofChars?_eq_some_iff.1 hread
          have hnot : splitVersionedFrom (c :: before) r ≠ some (p, v) := by
            intro h
            obtain ⟨mid, -, hr⟩ := hlater.1 h
            exact Version.not_starts_of_render_eq (hw.trans hr) (Version.starts_render v)
          rw [or_iff_left hnot]
          simp only [Option.some.injEq, Prod.mk.injEq]
          constructor
          · rintro ⟨rfl, rfl⟩
            exact ⟨String.toList_ofList, by rw [hc, hw]⟩
          · rintro ⟨hp, hr⟩
            refine ⟨?_, Version.render_injective (hw.trans (List.cons.inj hr).2)⟩
            obtain ⟨s, hs⟩ := p
            simp only [PackageName.mk.injEq]
            rw [← String.toList_inj, String.toList_ofList]
            exact hp.symm
      · next hname =>
        refine hnever fun ⟨hp, _⟩ => hname ?_
        rw [← hp, String.ofList_toList]
        exact p.valid
    · next hc => exact hnever fun ⟨_, hr⟩ => hc (List.cons.inj hr).1

/-- An entry is read as a package version if it is named for it. -/
theorem splitVersioned_eq_ok_iff {s : String} {p : PackageName} {v : Version} :
    splitVersioned s = .ok (p, v) ↔ s = entryName p v := by
  have hchars : s = entryName p v ↔ splitVersionedFrom [] s.toList = some (p, v) := by
    rw [splitVersionedFrom_eq_some_iff, ← String.toList_inj, toList_entryName]
    simp
  rw [hchars]
  unfold splitVersioned
  cases splitVersionedFrom [] s.toList with
  | none => simp
  | some reading => simp

/-- Two package versions have two names. -/
theorem entryName_injective {p p' : PackageName} {v v' : Version}
    (h : entryName p v = entryName p' v') : p = p' ∧ v = v' := by
  have hread := splitVersioned_eq_ok_iff.2 h
  rw [splitVersioned_eq_ok_iff.2 rfl] at hread
  exact Prod.mk.inj (Except.ok.inj hread)

theorem splitVersioned_eq_error_iff {s : String} :
    splitVersioned s = .error (.invalidVersion s) ↔ ∀ p v, s ≠ entryName p v := by
  have hread : splitVersioned s = .error (.invalidVersion s) ↔
      ∀ p v, splitVersioned s ≠ .ok (p, v) := by
    unfold splitVersioned
    cases splitVersionedFrom [] s.toList with
    | none => simp
    | some reading => exact iff_of_false nofun fun h => h reading.1 reading.2 rfl
  rw [hread]
  exact forall₂_congr fun p v => not_congr splitVersioned_eq_ok_iff

/-- A name joined with a version is taken apart into the two, and nothing else is taken apart.  Two
readings of one text are the same, so whichever hyphen separates a name from a version, the reading
at the first such hyphen is the one found. -/
theorem splitVersioned_inverts_joining :
    (∀ p v, splitVersioned (p.text ++ "-" ++ v.text) = .ok (p, v)) ∧
    (∀ s p v, splitVersioned s = .ok (p, v) → s = p.text ++ "-" ++ v.text) ∧
    (∀ (s : String) (p q : PackageName) (v w : Version),
      s = p.text ++ "-" ++ v.text → s = q.text ++ "-" ++ w.text → p = q ∧ v = w) ∧
    (∀ before after p v, PackageName.parse before = .ok p → Version.parse after = .ok v →
      splitVersioned (before ++ "-" ++ after) = .ok (p, v)) ∧
    ∀ s, splitVersioned s = .error (.invalidVersion s) ↔
      ∀ (p : PackageName) (v : Version), s ≠ p.text ++ "-" ++ v.text := by
  refine ⟨fun p v => ?_, fun s p v h => ?_, fun s p q v w hp hq => ?_, ?_, fun s => ?_⟩
  · exact splitVersioned_eq_ok_iff.2 rfl
  · exact splitVersioned_eq_ok_iff.1 h
  · exact entryName_injective (hp.symm.trans hq)
  · intro before after p v hp hv
    obtain rfl := PackageName.parse_eq_ok_iff.1 hp
    obtain rfl := Version.parse_eq_ok_iff.1 hv
    exact splitVersioned_eq_ok_iff.2 rfl
  · exact splitVersioned_eq_error_iff

/-! ### The hyphens of `x-1a-b-1.0-r1` -/

def hyphenatedName : PackageName := ⟨"x-1a-b", by decide +kernel⟩

def shortName : PackageName := ⟨"x", by decide⟩

def revisedVersion : Version := ⟨.ofNat 1, [.ofNat 0], none, [], some (.ofNat 1)⟩

theorem splitVersioned_inverts_joining_hyphenated :
    PackageName.parse "x-1a-b" = .ok hyphenatedName ∧
    Version.parse "1.0-r1" = .ok revisedVersion ∧
    splitVersioned ("x-1a-b" ++ "-" ++ "1.0-r1") = .ok (hyphenatedName, revisedVersion) ∧
    "x-1a-b" ++ "-" ++ "1.0-r1" = hyphenatedName.text ++ "-" ++ revisedVersion.text ∧
    ∀ w : Version, "x-1a-b" ++ "-" ++ "1.0-r1" ≠ shortName.text ++ "-" ++ w.text := by
  obtain ⟨-, hjoined, hunique, hread, -⟩ := splitVersioned_inverts_joining
  have hname : PackageName.parse "x-1a-b" = .ok hyphenatedName := PackageName.parse_eq_ok_iff.2 rfl
  have hversion : Version.parse "1.0-r1" = .ok revisedVersion :=
    Version.parse_eq_ok_iff.2 (by decide)
  have hsplit := hread _ _ _ _ hname hversion
  have htext := hjoined _ _ _ hsplit
  refine ⟨hname, hversion, hsplit, htext, fun w hw => ?_⟩
  exact absurd (hunique _ _ _ _ _ htext hw).1 (by decide)

end PackageCatalog
