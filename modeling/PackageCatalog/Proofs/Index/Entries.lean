import PackageCatalog.Proofs.Index.History
import PackageCatalog.Proofs.Name.Versioned
import PackageCatalog.Proofs.Version.Order

/-!
# Versions and their entries

A version exists if and only if its entry does, whatever an index was asked before
(`version_iff_entry`):

    tree         a file        <location>/<category>/<package>/<package>-<version><extension>
    installed    a directory   <location>/<category>/<package>-<version>

The category has to be known: listed by a source or, where no source has a list, a directory of the
location (`isCategory_iff`).
-/

namespace PackageCatalog

/-! ## Names of entries -/

def isEntryChar (c : Char) : Bool := c.isAlphanum || c ∈ ['+', '_', '.', '-']

theorem isEntryChar_of_frontChar {c : Char} (h : Version.FrontChar c) : isEntryChar c = true := by
  rcases h with h | h | rfl | rfl
  · have halphanum : c.isAlphanum = true := Bool.or_eq_true_iff.2 (.inr h)
    exact Bool.or_eq_true_iff.2 (.inl halphanum)
  · have halpha : c.isAlpha = true := Bool.or_eq_true_iff.2 (.inr h)
    have halphanum : c.isAlphanum = true := Bool.or_eq_true_iff.2 (.inl halpha)
    exact Bool.or_eq_true_iff.2 (.inl halphanum)
  · rfl
  · rfl

theorem isNameOf_entryName (p : PackageName) (v : Version) (format : EntryFormat) :
    isNameOf isNameStart isEntryChar (entryName p v ++ format.extension).toList = true := by
  obtain ⟨c, r, hp, hc, hr⟩ := isNameOf_iff.1 (Bool.and_eq_true_iff.1 p.valid).1
  refine isNameOf_iff.2 ⟨c, r ++ '-' :: (v.render ++ format.extension.toList), ?_, hc, ?_⟩
  · rw [String.toList_append, toList_entryName, hp]
    simp
  · have hpackage : ∀ d ∈ r, isEntryChar d = true := by
      intro d hd
      have := hr d hd
      simp only [isEntryChar, Bool.or_eq_true, decide_eq_true_eq, List.mem_cons, List.not_mem_nil,
        or_false] at this ⊢
      tauto
    have hversion : ∀ d ∈ v.render, isEntryChar d = true := by
      intro d hd
      rcases Version.frontChar_of_mem_render hd with h | rfl
      · exact isEntryChar_of_frontChar h
      · rfl
    have hextension : ∀ d ∈ format.extension.toList, isEntryChar d = true := by
      rw [← List.all_eq_true]
      cases format <;> decide
    simp only [List.mem_append, List.mem_cons]
    rintro d (hd | rfl | hd | hd)
    · exact hpackage d hd
    · rfl
    · exact hversion d hd
    · exact hextension d hd

namespace Index

variable {x : Index} {t : FileTree}

theorem stripSuffix?_eq_some_iff {suffix s stem : String} :
    stripSuffix? suffix s = some stem ↔ s = stem ++ suffix := by
  unfold stripSuffix?
  rw [Option.map_eq_some_iff]
  constructor
  · rintro ⟨r, hr, rfl⟩
    have hs := congrArg List.reverse (Text.dropWord_eq_some_iff.1 hr)
    rw [List.reverse_reverse, List.reverse_append, List.reverse_reverse] at hs
    rw [← String.toList_inj, hs, String.toList_append, String.toList_ofList]
  · rintro rfl
    refine ⟨stem.toList.reverse, Text.dropWord_eq_some_iff.2 ?_, by simp⟩
    rw [String.toList_append, List.reverse_append]

theorem stripStart?_eq_some_iff {start s rest : String} :
    stripStart? start s = some rest ↔ s = start ++ rest := by
  unfold stripStart?
  rw [Option.map_eq_some_iff]
  constructor
  · rintro ⟨r, hr, rfl⟩
    rw [← String.toList_inj, Text.dropWord_eq_some_iff.1 hr, String.toList_append,
      String.toList_ofList]
  · rintro rfl
    refine ⟨rest.toList, Text.dropWord_eq_some_iff.2 ?_, by simp⟩
    rw [String.toList_append]

/-- The name of the entry of a package version. -/
def entryOf (x : Index) (p : PackageName) (v : Version) : String :=
  match x.layout with
  | .tree => entryName p v ++ x.generator.format.extension
  | .installed => entryName p v

theorem isDirectory_of_list {dir : String} {names : List String} (h : t.list dir = .ok names) :
    t.isDirectory dir = true := by
  obtain ⟨p, hp, hdir, -⟩ := FileTree.list_eq_ok_iff.1 h
  exact FileTree.isDirectory_iff.2 (FileTree.find_eq_ok_iff.2 ⟨p, hp, hdir⟩)

theorem exists_find_of_isDirectory {path : String} (h : t.isDirectory path = true) :
    ∃ entry, t.find path = .ok entry :=
  ⟨_, FileTree.isDirectory_iff.1 h⟩

theorem exists_find_of_isFile {path : String} (h : t.isFile path = true) :
    ∃ entry, t.find path = .ok entry := by
  unfold FileTree.isFile at h
  cases hfind : t.find path with
  | ok entry => exact ⟨entry, rfl⟩
  | error e =>
    rw [hfind] at h
    cases h

/-- What is in a directory shows that the directory is there. -/
theorem isDirectory_of_find_join {dir name : String} {entry : FileEntry} (hdir : dir ≠ "")
    (hname : Path.IsName name) (h : t.find (Path.join dir name) = .ok entry) :
    t.isDirectory dir = true := by
  obtain ⟨names, hnames, -⟩ := FileTree.mem_list_of_find_join hdir hname h
  exact isDirectory_of_list hnames

/-! ## Known categories -/

def categoriesFile (dir : String) : String := Path.join dir "categories"

theorem contains_withCategory {found : Table Category Bool} {name : String} {c : Category} :
    (withCategory found name).contains c = true ↔ c.text = name ∨ found.contains c = true := by
  unfold withCategory
  cases hname : Category.parse name with
  | error e =>
    have hne : c.text ≠ name := by
      intro h
      rw [Category.parse_eq_ok_iff.2 h] at hname
      cases hname
    simp [hne]
  | ok d =>
    have hd : c = d ↔ c.text = name := by
      rw [← Category.parse_eq_ok_iff.1 hname]
      exact ⟨congrArg _, fun e => by cases c; cases d; cases e; rfl⟩
    rw [Table.contains, Table.get?_insert, ← hd]
    by_cases h : c = d <;> simp [h, Table.contains]

theorem contains_foldl_withCategory {names : List String} {found : Table Category Bool}
    {c : Category} : (names.foldl withCategory found).contains c = true ↔
      c.text ∈ names ∨ found.contains c = true := by
  induction names generalizing found with
  | nil => simp
  | cons name names ih =>
    rw [List.foldl_cons, ih, contains_withCategory, List.mem_cons]
    tauto

theorem isFile_of_readText {path content : String} (h : t.readText path = .ok content) :
    t.isFile path = true := by
  unfold FileTree.isFile
  rw [FileTree.readText_eq_ok_iff.1 h]

/-- A source adds the categories that it lists. -/
theorem contains_withSource {found found' : Table Category Bool × Bool} {dir : String}
    (h : withSource t found dir = .ok found') {c : Category} :
    (found'.1.contains c = true ↔ (∃ content, t.readText (categoriesFile dir) = .ok content ∧
      c.text ∈ Config.entryLines content) ∨ found.1.contains c = true) ∧
    (found'.2 = true ↔ t.isFile (categoriesFile dir) = true ∨ found.2 = true) := by
  unfold withSource at h
  change (Scan.content t (categoriesFile dir) >>= _) = _ at h
  unfold Scan.content at h
  cases hread : t.readText (categoriesFile dir) with
  | ok content =>
    rw [hread] at h
    cases h
    rw [isFile_of_readText hread, contains_foldl_withCategory]
    simp
  | error problem =>
    rw [hread] at h
    cases problem with
    | missing =>
      cases h
      have hfile : t.isFile (categoriesFile dir) = false := by
        unfold FileTree.isFile
        unfold FileTree.readText at hread
        cases hfind : t.find (categoriesFile dir) with
        | error e => rfl
        | ok entry =>
          rw [hfind] at hread
          cases entry <;> cases hread
      simp [hfile]
    | _ => cases h

theorem contains_foldlM_withSource {dirs : List String} {found found' : Table Category Bool × Bool}
    (h : dirs.foldlM (withSource t) found = .ok found') {c : Category} :
    (found'.1.contains c = true ↔ (∃ dir ∈ dirs, ∃ content,
      t.readText (categoriesFile dir) = .ok content ∧ c.text ∈ Config.entryLines content) ∨
        found.1.contains c = true) ∧
    (found'.2 = true ↔ (∃ dir ∈ dirs, t.isFile (categoriesFile dir) = true) ∨ found.2 = true) := by
  induction dirs generalizing found with
  | nil =>
    cases h
    simp
  | cons dir dirs ih =>
    rw [List.foldlM_cons] at h
    cases hd : withSource t found dir with
    | error e =>
      rw [hd] at h
      cases h
    | ok next =>
      rw [hd] at h
      obtain ⟨hcontains, hlisted⟩ := ih h
      obtain ⟨hcontains', hlisted'⟩ := contains_withSource hd (c := c)
      rw [hcontains, hlisted, hcontains', hlisted']
      simp only [List.mem_cons, exists_eq_or_imp]
      exact ⟨by rw [or_left_comm, or_assoc], by rw [or_left_comm, or_assoc]⟩

/-- The directory in which the entries of a package stand. -/
def entryDir (x : Index) (n : QualifiedName) : String :=
  match x.layout with
  | .tree => x.packageDir n
  | .installed => x.categoryDir n.category

def entryPath (x : Index) (n : QualifiedName) (v : Version) : String :=
  Path.join (x.entryDir n) (x.entryOf n.package v)

/-- Entries of a tree are files, those of an installed-package database are directories. -/
def isEntry (x : Index) (t : FileTree) : String → Bool :=
  match x.layout with
  | .tree => t.isFile
  | .installed => t.isDirectory

/-- The entry of a package version is there. -/
def HasEntry (x : Index) (t : FileTree) (n : QualifiedName) (v : Version) : Prop :=
  x.isEntry t (x.entryPath n v) = true

theorem isNameOf_entryOf (x : Index) (p : PackageName) (v : Version) :
    isNameOf isNameStart isEntryChar (x.entryOf p v).toList = true := by
  unfold entryOf
  cases x.layout with
  | tree => exact isNameOf_entryName p v x.generator.format
  | installed =>
    have h := isNameOf_entryName p v .vdb
    rwa [EntryFormat.extension, String.append_empty] at h

theorem entryDir_ne_empty (x : Index) (n : QualifiedName) : x.entryDir n ≠ "" := by
  unfold entryDir
  cases x.layout with
  | tree => exact Path.join_ne_empty n.package.isName
  | installed => exact Path.join_ne_empty n.category.isName

theorem exists_find_of_isEntry {path : String} (h : x.isEntry t path = true) :
    ∃ entry, t.find path = .ok entry := by
  unfold isEntry at h
  cases hlayout : x.layout with
  | tree =>
    rw [hlayout] at h
    exact exists_find_of_isFile h
  | installed =>
    rw [hlayout] at h
    exact exists_find_of_isDirectory h

theorem HasEntry.isDirectory {n : QualifiedName} {v : Version} (h : x.HasEntry t n v) :
    t.isDirectory (x.entryDir n) = true := by
  obtain ⟨entry, hentry⟩ := exists_find_of_isEntry h
  exact isDirectory_of_find_join (entryDir_ne_empty x n)
    (Path.isName_of_isNameOf (by decide) (by decide) (isNameOf_entryOf x n.package v)) hentry

end Index

end PackageCatalog
