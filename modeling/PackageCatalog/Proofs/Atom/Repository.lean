import PackageCatalog.Proofs.Atom.Exact

/-!
# The atom of one repository

The text `category/package::repository` is read as the atom that accepts every version of the
package in that repository, and nothing else:

    Atom.parse? (n.text ++ "::" ++ name.text) = some (Atom.within n name)            (parse?_within)
    (Atom.within n name).accepts m w repository slot ↔ m = n ∧ repository = name.text
                                                                               (accepts_within_iff)

A package name does not end in a version, so none of it is read as one; and it ends before the
colons, since neither of the two words has a colon.
-/

namespace PackageCatalog

/-! ## No version is read -/

theorem endsInVersion_append (before : List Char) (v : Version) :
    endsInVersion (before ++ '-' :: v.render) = true := by
  induction before with
  | nil => simp [endsInVersion, Version.ofChars?_render]
  | cons c r ih => rw [List.cons_append, endsInVersion, ih, Bool.or_true]

theorem PackageName.toList_ne_versioned (package : PackageName) (before : List Char) (v : Version) :
    package.text.toList ≠ before ++ '-' :: v.render := by
  intro h
  have hvalid := (Bool.and_eq_true_iff.1 package.valid).2
  rw [h, endsInVersion_append] at hvalid
  cases hvalid

theorem splitLastHyphen_spec {cs before after : List Char}
    (h : splitLastHyphen cs = some (before, after)) : cs = before ++ '-' :: after := by
  induction cs generalizing before with
  | nil => cases h
  | cons c r ih =>
    rw [splitLastHyphen] at h
    split at h
    · next hlater =>
      cases h
      rw [ih hlater, List.cons_append]
    · split at h
      · next hc =>
        cases h
        rw [hc.1, List.nil_append]
      · cases h

/-- A constraint is read from a version, which a star may follow. -/
theorem VersionConstraint.ofChars?_spec {cs : List Char} {c : VersionConstraint}
    (h : ofChars? cs = some c) : ∃ v : Version, cs = v.render ∨ cs = v.render ++ ['*'] := by
  unfold ofChars? at h
  split at h
  · next v hread => exact ⟨v, .inl (by rw [← Version.append_of_read? hread, List.append_nil])⟩
  · next v hread => exact ⟨v, .inr (Version.append_of_read? hread).symm⟩
  · cases h

theorem splitPackage?_text (package : PackageName) : splitPackage? package.text.toList = none := by
  unfold splitPackage?
  cases hsplit : splitLastHyphen package.text.toList with
  | none => rfl
  | some parts =>
    obtain ⟨before, after⟩ := parts
    have hcut := splitLastHyphen_spec hsplit
    have hnone : VersionConstraint.ofChars? after = none := by
      refine Option.eq_none_iff_forall_ne_some.2 fun c hc => ?_
      obtain ⟨v, rfl | rfl⟩ := VersionConstraint.ofChars?_spec hc
      · exact package.toList_ne_versioned before v hcut
      · have hstar : '*' ∈ package.text.toList := by simp [hcut]
        exact absurd (package.isWordChar_of_mem '*' hstar) (by decide)
    simp [hnone]

/-! ## Names without a version -/

/-- A package name is read up to what can be neither of it nor of a version. -/
theorem readPackage_append (package : PackageName) {rest : List Char}
    (hrest : Starts (fun c => isVersionedChar c = false) rest) :
    readPackage false (package.text.toList ++ rest) =
      some ((package.text.toList, none), rest) := by
  obtain ⟨htake, -⟩ := takeWhile_dropWhile_append (p := isVersionedChar)
    (fun c hc => isWordChar_mono (package.isWordChar_of_mem c hc)) hrest
  have hstart : package.text.toList.head?.any isPackageStart = true := by
    obtain ⟨c, r, htext, hc, -⟩ := isNameOf_iff.1 (Bool.and_eq_true_iff.1 package.valid).1
    rw [htext]
    exact hc
  unfold readPackage
  rw [htake, splitPackage?_text, readWord_append hstart package.isWordChar_of_mem
    (hrest.mono fun c hc => Bool.eq_false_iff.2 (mt isWordChar_mono (Bool.eq_false_iff.1 hc)))]
  rfl

theorem QualifiedName.toList_text (n : QualifiedName) :
    n.text.toList = n.category.text.toList ++ '/' :: n.package.text.toList := by
  simp [text]

theorem readNamed_append (n : QualifiedName) {rest : List Char}
    (hrest : Starts (fun c => isVersionedChar c = false) rest) :
    readNamed false (n.text.toList ++ rest) =
      .ok ((n.category.text.toList, n.package.text.toList, none), rest) := by
  unfold readNamed
  rw [n.toList_text, List.append_assoc, List.cons_append, readCategory_append]
  simp only [readPackage_append n.package hrest]

theorem readBlocker_of_starts {cs : List Char} (h : Starts (· ≠ '!') cs) :
    readBlocker cs = (none, cs) := by
  unfold readBlocker
  split
  · exact absurd rfl (h '!' rfl)
  · exact absurd rfl (h '!' rfl)
  · rfl

theorem readOperator_of_starts {cs : List Char} (h : Starts (· ∉ ['<', '>', '~', '=']) cs) :
    readOperator cs = (none, cs) := by
  unfold readOperator
  split
  · exact absurd (by decide) (h '<' rfl)
  · exact absurd (by decide) (h '<' rfl)
  · exact absurd (by decide) (h '>' rfl)
  · exact absurd (by decide) (h '>' rfl)
  · exact absurd (by decide) (h '~' rfl)
  · exact absurd (by decide) (h '=' rfl)
  · rfl

/-- Neither of the two stands before a name. -/
theorem QualifiedName.readMarks_text (n : QualifiedName) (rest : List Char) :
    readBlocker (n.text.toList ++ rest) = (none, n.text.toList ++ rest) ∧
      readOperator (n.text.toList ++ rest) = (none, n.text.toList ++ rest) := by
  obtain ⟨c, r, htext, hc, -⟩ := isNameOf_iff.1 n.category.valid
  rw [n.toList_text, htext, List.cons_append, List.cons_append]
  constructor
  · refine readBlocker_of_starts (starts_cons ?_ _)
    rintro rfl
    exact absurd hc (by decide)
  · refine readOperator_of_starts (starts_cons (fun hmem => ?_) _)
    simp only [List.mem_cons, List.not_mem_nil, or_false] at hmem
    rcases hmem with rfl | rfl | rfl | rfl <;> exact absurd hc (by decide)

/-! ## The repository -/

theorem RepositoryName.isWordChar_of_mem (name : RepositoryName) :
    ∀ c ∈ name.text.toList, isWordChar [] c = true :=
  isWordChar_of_isNameOf (by decide) name.valid

theorem readRepository_name (name : RepositoryName) :
    readRepository (':' :: ':' :: name.text.toList) = (some name.text, []) := by
  have hstart : name.text.toList.head?.any (fun _ => true) = true := by
    obtain ⟨c, r, htext, -⟩ := isNameOf_iff.1 name.valid
    rw [htext]
    rfl
  have hread := readWord_append hstart name.isWordChar_of_mem starts_nil
  rw [List.append_nil] at hread
  simp only [readRepository, hread, String.ofList_toList]

namespace Atom

/-- The atom that accepts the package in one repository only. -/
def within (n : QualifiedName) (name : RepositoryName) : Atom where
  blocker := none
  category := n.category.text
  package := n.package.text
  version := none
  slot := none
  uses := none
  repository := some name.text

variable {n m : QualifiedName} {name : RepositoryName}

theorem parse?_within (n : QualifiedName) (name : RepositoryName) :
    parse? (n.text ++ "::" ++ name.text) = some (within n name) := by
  have htext : (n.text ++ "::" ++ name.text).toList =
      n.text.toList ++ ':' :: ':' :: name.text.toList := by
    simp
  obtain ⟨hblocker, hoperator⟩ := n.readMarks_text (':' :: ':' :: name.text.toList)
  have hnamed : readNamed false (n.text.toList ++ ':' :: ':' :: name.text.toList) = _ :=
    readNamed_append n (starts_cons (by rfl) _)
  have hrepository := readRepository_name name
  have hslot : readSlot (':' :: ':' :: name.text.toList) =
      (none, ':' :: ':' :: name.text.toList) := rfl
  have huses : readUseList (':' :: ':' :: name.text.toList) =
      .ok (none, ':' :: ':' :: name.text.toList) := rfl
  have hread : read (n.text ++ "::" ++ name.text).toList = .ok (within n name, []) := by
    rw [htext]
    simp only [read, hblocker, hoperator, Option.isSome_none, hnamed, hslot, huses, hrepository,
      bind, Except.bind, pure, Except.pure, String.ofList_toList]
    rfl
  unfold parse? readAll
  rw [hread]
  rfl

theorem name_within (n : QualifiedName) (name : RepositoryName) : (within n name).name = n.text :=
  rfl

theorem accepts_within_iff {w : Version} {repository : String} {slot : Option Slot} :
    (within n name).accepts m w repository slot = true ↔ m = n ∧ repository = name.text := by
  have hname : ((within n name).name == m.text) = true ↔ m = n := by
    rw [name_within, beq_iff_eq, QualifiedName.text_inj, eq_comm]
  have haccepts : (within n name).accepts m w repository slot =
      ((within n name).name == m.text && name.text == repository) := by
    simp [accepts, acceptsApartFromSlot, wantedSlot, within]
  rw [haccepts, Bool.and_eq_true, hname, beq_iff_eq, eq_comm (a := name.text)]

end Atom

end PackageCatalog
