import PackageCatalog.Proofs.Files.Places

/-!
# Spellings of a path

Paths that are the same may be spelled with more slashes or with `.` parts.  Whatever is joined with
them is the same again, and they lead to the same place:

    Path.same a b → Path.same (join a part) (join b part)                   (same_join)
    Path.same a b → placeOf a = placeOf b                                   (placeOf_eq_of_same)

A longer spelling may be too long to be looked up, so that of two spellings only one finds what is
there (`find_join_of_same`).
-/

namespace PackageCatalog

namespace Path

/-! ## Parts and components -/

theorem parts_empty : parts "" = [""] := rfl

theorem ne_slash_of_mem_parts {path part : String} (h : part ∈ parts path) : part ≠ "/" := by
  rintro rfl
  obtain ⟨cs, hcs, hslash⟩ := List.mem_map.1 h
  have hmem : '/' ∈ cs := by
    rw [← String.toList_ofList (l := cs), hslash]
    decide
  exact absurd (Text.sep_eq_false_of_mem_splitBy hcs hmem) (by decide)

/-- The first part is empty if a slash, or nothing, comes first. -/
theorem headD_parts_eq_empty_iff (path : String) :
    (parts path).headD "" = "" ↔ isAbsolute path = true ∨ path = "" := by
  rw [show path = "" ↔ path.toList = "".toList from String.toList_inj.symm]
  unfold parts isAbsolute
  cases path.toList with
  | nil => simp [Text.splitBy]
  | cons c r =>
    by_cases hc : c = '/'
    · simp [Text.splitBy, hc]
    · cases hs : Text.splitBy (· == '/') r with
      | nil => exact absurd hs (Text.splitBy_ne_nil _ _)
      | cons w ws => simp [Text.splitBy, hc, hs]

theorem components_eq {path first : String} {rest : List String} (h : parts path = first :: rest) :
    components path = (if isAbsolute path then ["/"] else if first.isEmpty then [] else [first]) ++
      rest.filter (!isVoid ·) := by
  unfold components
  rw [h]
  cases isAbsolute path <;> rfl

theorem components_eq_nil_iff {path : String} : components path = [] ↔ path = "" := by
  obtain ⟨first, rest, hparts⟩ := List.exists_cons_of_ne_nil (parts_ne_nil path)
  have hhead := headD_parts_eq_empty_iff path
  rw [hparts, List.headD_cons] at hhead
  constructor
  · intro h
    rw [components_eq hparts, List.append_eq_nil_iff] at h
    by_cases habsolute : isAbsolute path = true
    · simp [habsolute] at h
    · by_cases hfirst : first = ""
      · exact (hhead.1 hfirst).resolve_left habsolute
      · simp [habsolute, hfirst] at h
  · rintro rfl
    rfl

theorem isAbsolute_eq (path : String) :
    isAbsolute path = ((components path).head? == some "/") := by
  obtain ⟨first, rest, hparts⟩ := List.exists_cons_of_ne_nil (parts_ne_nil path)
  have hfirst : first ≠ "/" := ne_slash_of_mem_parts (hparts ▸ List.mem_cons_self)
  have hhead := headD_parts_eq_empty_iff path
  rw [hparts, List.headD_cons] at hhead
  rw [components_eq hparts]
  cases habsolute : isAbsolute path with
  | true => simp
  | false =>
    by_cases hempty : first = ""
    · have hpath : path = "" := (hhead.1 hempty).resolve_left (by simp [habsolute])
      subst hpath
      cases hparts.symm.trans parts_empty
      rfl
    · simp [hempty, hfirst]

/-- The parts that count are components. -/
theorem filter_parts (path : String) : (parts path).filter (!isVoid ·) =
    (components path).filter fun c => !isVoid c && c != "/" := by
  obtain ⟨first, rest, hparts⟩ := List.exists_cons_of_ne_nil (parts_ne_nil path)
  have hslash : ∀ part ∈ parts path, part ≠ "/" := fun _ => ne_slash_of_mem_parts
  have hhead := headD_parts_eq_empty_iff path
  rw [hparts] at hslash hhead
  rw [List.headD_cons] at hhead
  have hrest : (rest.filter (!isVoid ·)).filter (fun c => !isVoid c && c != "/") =
      rest.filter (!isVoid ·) := by
    rw [List.filter_eq_self]
    intro part hpart
    obtain ⟨hmem, hvoid⟩ := List.mem_filter.1 hpart
    simp [hslash part (List.mem_cons_of_mem _ hmem), hvoid]
  rw [components_eq hparts, hparts, List.filter_append, hrest, List.filter_cons]
  by_cases hempty : first = ""
  · subst hempty
    cases isAbsolute path <;> simp [isVoid]
  · have habsolute : isAbsolute path = false :=
      Bool.eq_false_iff.2 fun h => hempty (hhead.2 (.inl h))
    cases hvoid : isVoid first <;>
      simp [habsolute, hempty, hvoid, hslash first List.mem_cons_self]

/-! ## Joining -/

theorem components_join {base part : String} (hbase : base ≠ "") (hpart : isAbsolute part = false) :
    components (join base part) = components base ++ (parts part).filter (!isVoid ·) := by
  have habsolute : isAbsolute (join base part) = isAbsolute base := by
    obtain ⟨c, r, hcons⟩ := List.exists_cons_of_ne_nil (l := base.toList) (by simpa using hbase)
    rw [join_of_not_isAbsolute hpart]
    unfold isAbsolute
    split <;> simp [hcons]
  obtain ⟨first, rest, hparts⟩ := List.exists_cons_of_ne_nil (parts_ne_nil base)
  rcases parts_join_of_not_isAbsolute hbase hpart with h | ⟨way, hway, hend, h⟩
  · rw [hparts, List.cons_append] at h
    rw [components_eq h, components_eq hparts, habsolute, List.filter_append, List.append_assoc]
  · obtain ⟨first', rest', rfl⟩ := List.exists_cons_of_ne_nil hway
    rw [List.cons_append] at h hend
    rw [components_eq h, components_eq hend, habsolute, List.filter_append, List.filter_append,
      List.append_assoc]
    simp [isVoid]

theorem same_symm {a b : String} (h : same a b = true) : same b a = true :=
  same_iff.2 (same_iff.1 h).symm

theorem same_trans {a b c : String} (h : same a b = true) (h' : same b c = true) :
    same a c = true :=
  same_iff.2 ((same_iff.1 h).trans (same_iff.1 h'))

theorem same_join {a b : String} (h : same a b = true) (part : String) :
    same (join a part) (join b part) = true := by
  rw [same_iff] at h ⊢
  cases hpart : isAbsolute part with
  | true => rw [join_of_isAbsolute hpart, join_of_isAbsolute hpart]
  | false =>
    by_cases ha : a = ""
    · rw [components_eq_nil_iff.1 (h.symm.trans (components_eq_nil_iff.2 ha)), ha]
    · have hb : b ≠ "" := fun hb =>
        ha (components_eq_nil_iff.1 (h.trans (components_eq_nil_iff.2 hb)))
      rw [components_join ha hpart, components_join hb hpart, h]

end Path

namespace FileTree

open PackageCatalog.Path (join parts same IsName isVoid)

/-! ## Places -/

theorem foldl_stride_filter (way : List String) (p : Place) :
    (way.filter (!isVoid ·)).foldl stride p = way.foldl stride p := by
  induction way generalizing p with
  | nil => rfl
  | cons part way ih =>
    cases hvoid : isVoid part with
    | true => simpa [hvoid, stride] using ih p
    | false => simpa [hvoid] using ih (stride p part)

theorem startOf_parts (path : String) :
    startOf (parts path) = if Path.isAbsolute path ∨ path = "" then [] else workingPlace := by
  unfold startOf
  simp only [String.isEmpty_iff, Path.headD_parts_eq_empty_iff]

theorem placeOf_eq_of_same {a b : String} (h : same a b = true) : placeOf a = placeOf b := by
  have hcomponents := Path.same_iff.1 h
  have hstart : startOf (parts a) = startOf (parts b) := by
    rw [startOf_parts, startOf_parts, Path.isAbsolute_eq, Path.isAbsolute_eq, hcomponents]
    simp only [← Path.components_eq_nil_iff, hcomponents]
  unfold placeOf
  rw [← foldl_stride_filter, ← foldl_stride_filter (parts b), Path.filter_parts,
    Path.filter_parts, hcomponents, hstart]

/-- What is in a directory is found there under the spelling of the directory, unless that is too
long. -/
theorem find_join_of_same {t : FileTree} {a b name : String} (hname : IsName name)
    (hsame : same a b = true) (hdir : t.isDirectory a = true) {entry : FileEntry}
    (h : t.find (join b name) = .ok entry) :
    t.find (join a name) = .ok entry ∨ t.find (join a name) = .error .nameTooLong := by
  have ha : a ≠ "" := by
    obtain ⟨p, hp, -⟩ := find_eq_ok_iff.1 (isDirectory_iff.1 hdir)
    exact (locate_eq_ok_iff.1 hp).2.1
  have hb : b ≠ "" := fun hb => ha <| Path.components_eq_nil_iff.1 <|
    (Path.same_iff.1 hsame).trans (Path.components_eq_nil_iff.2 hb)
  obtain ⟨q, hq, hentry⟩ := find_eq_ok_iff.1 h
  obtain ⟨p, hp, -, -, -, rfl⟩ := (locate_join_iff hb hname).1 hq
  rw [locate_eq_placeOf hp, ← placeOf_eq_of_same hsame] at hentry
  by_cases hfits : Fits a name
  · exact .inl ((find_join ha hname hdir).2 ⟨hfits, hentry⟩)
  · exact .inr (find_join_of_not_fits ha hname hdir hfits)

end FileTree

end PackageCatalog
