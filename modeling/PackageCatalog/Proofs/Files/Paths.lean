import PackageCatalog.Files.Path
import PackageCatalog.Name.Basic
import PackageCatalog.Proofs.Text.Words

/-!
# The parts of joined paths

The parts of a path joined with one that is not absolute are the parts of the first, then those of
the second; a slash at the end of the first is not doubled (`parts_join_of_not_isAbsolute`).  A name
is a text that can stand in a directory, and a part of its own (`parts_join`).
Names of categories and packages are names (`Category.isName`, `PackageName.isName`).
-/

namespace PackageCatalog

/-! ## Characters of names -/

theorem isNameOf_iff {first others : Char → Bool} {cs : List Char} :
    isNameOf first others cs = true ↔
      ∃ c r, cs = c :: r ∧ first c = true ∧ ∀ d ∈ r, others d = true := by
  cases cs with
  | nil => exact ⟨nofun, nofun⟩
  | cons c r =>
    rw [isNameOf, Bool.and_eq_true, List.all_eq_true]
    constructor
    · rintro ⟨hc, hr⟩
      exact ⟨c, r, rfl, hc, hr⟩
    · rintro ⟨c', r', hcons, hc, hr⟩
      cases hcons
      exact ⟨hc, hr⟩

/-- Letters and digits are those of ASCII. -/
theorem toNat_of_isAlphanum {c : Char} (h : c.isAlphanum = true) :
    ((65 ≤ c.toNat ∧ c.toNat ≤ 90) ∨ (97 ≤ c.toNat ∧ c.toNat ≤ 122)) ∨
      (48 ≤ c.toNat ∧ c.toNat ≤ 57) := by
  change ((decide (65 ≤ c.val ∧ c.val ≤ 90) ||
    (decide (97 ≤ c.val) && decide (c.val ≤ 122))) ||
    (decide (48 ≤ c.val) && decide (c.val ≤ 57))) = true at h
  simp only [Bool.or_eq_true, Bool.and_eq_true, decide_eq_true_eq, UInt32.le_iff_toNat_le] at h
  exact h

theorem forall_mem_of_isNameOf {first others : Char → Bool} {P : Char → Prop} {cs : List Char}
    (hfirst : ∀ c, first c = true → P c) (hothers : ∀ c, others c = true → P c)
    (h : isNameOf first others cs = true) : ∀ c ∈ cs, P c := by
  obtain ⟨c, r, rfl, hc, hr⟩ := isNameOf_iff.1 h
  exact List.forall_mem_cons.2 ⟨hfirst c hc, fun d hd => hothers d (hr d hd)⟩

theorem notMem_of_isNameOf {first others : Char → Bool} {cs : List Char} {d : Char}
    (h : isNameOf first others cs = true) (hfirst : first d = false)
    (hothers : others d = false) : d ∉ cs := by
  have hne : ∀ c ∈ cs, c ≠ d := by
    refine forall_mem_of_isNameOf ?_ ?_ h
    · rintro c hc rfl
      exact Bool.false_ne_true (hfirst.symm.trans hc)
    · rintro c hc rfl
      exact Bool.false_ne_true (hothers.symm.trans hc)
  exact fun hd => hne d hd rfl

namespace Path

/-! ## Names -/

/-- A text that can stand in a directory. -/
structure IsName (name : String) : Prop where
  notVoid : isVoid name = false
  notParent : name ≠ ".."
  slash : '/' ∉ name.toList
  nul : '\x00' ∉ name.toList

theorem IsName.ne_empty {name : String} (h : IsName name) : name ≠ "" := by
  rintro rfl
  exact absurd h.notVoid (by decide)

theorem IsName.not_isAbsolute {name : String} (h : IsName name) : isAbsolute name = false := by
  unfold isAbsolute
  cases hn : name.toList with
  | nil => rfl
  | cons c r =>
    have hc : c ≠ '/' := by
      rintro rfl
      exact h.slash (hn ▸ List.mem_cons_self)
    simpa using hc

/-- What starts like a name of the catalogue and goes on without slash or NUL is a name. -/
theorem isName_of_isNameOf {others : Char → Bool} {name : String} (hslash : others '/' = false)
    (hnul : others '\x00' = false) (h : isNameOf isNameStart others name.toList = true) :
    IsName name := by
  have differs : ∀ text : String, (text.toList.head?.all fun d => !isNameStart d) = true →
      name ≠ text := by
    rintro text htext rfl
    obtain ⟨c, r, hn, hc, -⟩ := isNameOf_iff.1 h
    rw [hn] at htext
    simp [hc] at htext
  have hempty := differs "" (by decide)
  have hdot := differs "." (by decide)
  exact ⟨by simp [isVoid, hempty, hdot], differs ".." (by decide),
    notMem_of_isNameOf h (by decide) hslash, notMem_of_isNameOf h (by decide) hnul⟩

end Path

theorem Category.isName (c : Category) : Path.IsName c.text :=
  Path.isName_of_isNameOf (by decide) (by decide) c.valid

theorem PackageName.isName (p : PackageName) : Path.IsName p.text :=
  Path.isName_of_isNameOf (by decide) (by decide) (Bool.and_eq_true_iff.1 p.valid).1

theorem RepositoryName.isName (name : RepositoryName) : Path.IsName name.text :=
  Path.isName_of_isNameOf (by decide) (by decide) name.valid

namespace Path

/-! ## Joining -/

theorem join_of_not_isAbsolute {base part : String} (h : isAbsolute part = false) :
    join base part = if base.isEmpty || base.toList.getLast? == some '/' then base ++ part
      else base ++ "/" ++ part := by
  unfold join
  rw [h]
  rfl

theorem join_of_isName {base name : String} (h : IsName name) :
    join base name = if base.isEmpty || base.toList.getLast? == some '/' then base ++ name
      else base ++ "/" ++ name :=
  join_of_not_isAbsolute h.not_isAbsolute

theorem parts_ne_nil (path : String) : parts path ≠ [] := by
  simp [parts, Text.splitBy_ne_nil]

theorem parts_of_isName {name : String} (h : IsName name) : parts name = [name] := by
  unfold parts
  rw [Text.splitBy_of_forall fun c hc => by
    simpa using fun e : c = '/' => h.slash (e ▸ hc)]
  simp

theorem parts_append_slash (before after : String) :
    parts (before ++ "/" ++ after) = parts before ++ parts after := by
  unfold parts
  rw [String.toList_append, String.toList_append, List.append_assoc,
    show "/".toList ++ after.toList = '/' :: after.toList from rfl,
    Text.splitBy_append_cons (by decide), List.map_append]

/-- The parts of the second path come after those of the first; the empty part behind a slash at the
end of the first gives way to them. -/
theorem parts_join_of_not_isAbsolute {base part : String} (hbase : base ≠ "")
    (hpart : isAbsolute part = false) : parts (join base part) = parts base ++ parts part ∨
      ∃ way, way ≠ [] ∧ parts base = way ++ [""] ∧ parts (join base part) = way ++ parts part := by
  rw [join_of_not_isAbsolute hpart]
  by_cases hslash : base.toList.getLast? = some '/'
  · right
    obtain ⟨front, hfront⟩ : ∃ front, base.toList = front ++ ['/'] :=
      List.getLast?_eq_some_iff.1 hslash
    have hb : base = String.ofList front ++ "/" := by
      rw [← String.toList_inj, hfront]
      simp
    refine ⟨parts (String.ofList front), parts_ne_nil _, ?_, ?_⟩
    · have := parts_append_slash (String.ofList front) ""
      rw [String.append_empty, ← hb] at this
      exact this
    · rw [if_pos (by simp [hslash]), hb, parts_append_slash]
  · left
    rw [if_neg (by simp [hslash, hbase]), parts_append_slash]

/-- The name comes after the parts of the path; the empty part behind a slash at the end of the path
gives way to it. -/
theorem parts_join {base name : String} (hbase : base ≠ "") (hname : IsName name) :
    parts (join base name) = parts base ++ [name] ∨
      ∃ way, way ≠ [] ∧ parts base = way ++ [""] ∧ parts (join base name) = way ++ [name] := by
  have h := parts_join_of_not_isAbsolute hbase hname.not_isAbsolute
  rwa [parts_of_isName hname] at h

theorem join_ne_empty {base name : String} (hname : IsName name) : join base name ≠ "" := by
  rw [join_of_isName hname]
  have := hname.ne_empty
  split <;> simp [String.append_eq_empty_iff, this]

end Path

end PackageCatalog
