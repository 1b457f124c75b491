import PackageCatalog.Index.Question
import PackageCatalog.Proofs.Ascending
import PackageCatalog.Proofs.Files.Places
import PackageCatalog.Proofs.Scans

/-!
# What an index would find

The answers of an index as functions of the file tree alone: what it finds if it looks anew at
everything a question needs.  Nothing is remembered here, so there is no order of asking.

    p ∈ packages of c in a tree ↔
      the directory of c/p is there, and it holds entry files              (mem_listedPackages_iff)
-/

namespace PackageCatalog

instance : Inhabited IndexMemo := ⟨{}⟩

namespace Index

variable (x : Index) (t : FileTree)

/-! ## Directories -/

/-- The visible names in a directory of one kind, with their paths. -/
def entriesIn (t : FileTree) (kind : String → Bool) (dir : String) :
    Except Error (List (String × String)) :=
  (Scan.listed t dir).map fun names =>
    ((names.filter (!isHidden ·)).map fun name => (name, Path.join dir name)).filter
      fun entry => kind entry.2

def subdirectoriesIn (dir : String) : Except Error (List (String × String)) :=
  entriesIn t t.isDirectory dir

def filesIn (dir : String) : Except Error (List (String × String)) := entriesIn t t.isFile dir

/-! ## Categories -/

def withCategory (found : Table Category Bool) (name : String) : Table Category Bool :=
  match Category.parse name with
  | .ok c => found.insert c false
  | .error _ => found

def withSource (found : Table Category Bool × Bool) (dir : String) :
    Except Error (Table Category Bool × Bool) := do
  match ← Scan.content t (Path.join dir "categories") with
  | none => return found
  | some content => return ((Config.entryLines content).foldl withCategory found.1, true)

/-- The categories; none of them is marked as loaded. -/
def listedCategories : Except Error (Table Category Bool) := do
  let (found, listed) ← x.sources.foldlM (withSource t) (∅, false)
  if listed then return found
  let dirs := (← subdirectoriesIn t x.location).filter fun entry => entry.1 ∉ reservedDirs
  return dirs.foldl (fun found entry => withCategory found entry.1) found

/-! ## Packages -/

def holdsEntries (dir : String) : Except Error Bool :=
  (filesIn t dir).map fun entries =>
    entries.any fun entry => (stripSuffix? x.generator.format.extension entry.1).isSome

def withTreePackage (found : List PackageName) (entry : String × String) :
    Except Error (List PackageName) :=
  match PackageName.parse entry.1 with
  | .ok p => do return if ← x.holdsEntries t entry.2 then Ascending.insert p found else found
  | .error _ => .ok found

/-- The packages and versions that directories of an installed-package database are named for. -/
def readings (dirs : List (String × String)) : List (PackageName × Version) :=
  dirs.filterMap fun entry => (splitVersioned entry.1).toOption

/-- The packages in the directory of a category. -/
def listedPackages (c : Category) : Except Error (List PackageName) := do
  let dirs ← subdirectoriesIn t (x.categoryDir c)
  match x.layout with
  | .tree => dirs.foldlM (x.withTreePackage t) []
  | .installed => return Ascending.ofList ((readings dirs).map Prod.fst)

/-! ## Versions -/

def withEntryFile (p : PackageName) (found : List Version) (entry : String × String) :
    List Version :=
  match stripSuffix? x.generator.format.extension entry.1 with
  | none => found
  | some stem =>
    match stripStart? (p.text ++ "-") stem with
    | none => found
    | some text =>
      match Version.parse text with
      | .ok v => Ascending.insert v found
      | .error _ => found

/-- The versions of a package, wherever entries of the layout stand. -/
def listedVersions (n : QualifiedName) : Except Error (List Version) :=
  match x.layout with
  | .tree => (filesIn t (x.packageDir n)).map fun entries =>
      entries.foldl (x.withEntryFile n.package) []
  | .installed => (subdirectoriesIn t (x.categoryDir n.category)).map fun dirs =>
      Ascending.ofList (((readings dirs).filter fun r => r.1 = n.package).map Prod.snd)

/-! ## Questions -/

def isCategory (c : Category) : Except Error Bool :=
  (x.listedCategories t).map fun found => found.contains c

/-- The packages of a category, none if it is unknown. -/
def packagesIn (c : Category) : Except Error (List PackageName) := do
  if ← x.isCategory t c then x.listedPackages t c else return []

/-- Whether a package exists; in a tree, whether its directory does. -/
def holds (n : QualifiedName) : Except Error Bool := do
  if ← x.isCategory t n.category then
    match x.layout with
    | .tree => return t.isDirectory (x.packageDir n)
    | .installed => return n.package ∈ (← x.listedPackages t n.category)
  else return false

def versionsIn (n : QualifiedName) : Except Error (List Version) := do
  if ← x.holds t n then x.listedVersions t n else return []

def recordIn (n : QualifiedName) (v : Version) : Except Error Metadata := do
  if v ∈ (← x.versionsIn t n) then
    (x.generator.generate x.location n v : Scan IndexMemo Metadata).found t
  else throw (.noSuchPackage n.text v.text x.repository)

def categoriesIn : Except Error (List Category) :=
  (x.listedCategories t).map fun found => Ascending.ofList found.keys

def packageNamesIn (c : Category) : Except Error (List QualifiedName) :=
  (x.packagesIn t c).map fun ps => ps.map fun p => ⟨c, p⟩

/-- What an index finds for a question if it looks anew. -/
def answerIn {α : Type} : Question α → Except Error α
  | .hasCategory c => x.isCategory t c
  | .categories => x.categoriesIn t
  | .packages c => x.packageNamesIn t c
  | .hasPackage n => x.holds t n
  | .versions n => x.versionsIn t n
  | .hasVersion n v => (x.versionsIn t n).map fun vs => decide (v ∈ vs)
  | .metadata n v => x.recordIn t n v
  | .containing p => do (← x.categoriesIn t).filterM fun c => x.holds t ⟨c, p⟩

def allPackagesIn : Except Error (List QualifiedName) := do
  return Ascending.ofList (← (← x.categoriesIn t).mapM (x.packageNamesIn t)).flatten

/-! ## Lemmas -/

theorem isHidden_of_isNameOf {others : Char → Bool} {name : String}
    (h : isNameOf isNameStart others name.toList = true) : isHidden name = false := by
  obtain ⟨c, r, hn, hc, -⟩ := isNameOf_iff.1 h
  have hdot : c ≠ '.' := by
    rintro rfl
    exact absurd hc (by decide)
  unfold isHidden
  rw [hn]
  simpa using hdot

variable {x t}

theorem mem_entriesIn_iff {kind : String → Bool} {dir : String}
    {entries : List (String × String)} (h : entriesIn t kind dir = .ok entries)
    {entry : String × String} : entry ∈ entries ↔ ∃ names, Scan.listed t dir = .ok names ∧
      entry.1 ∈ names ∧ isHidden entry.1 = false ∧ entry.2 = Path.join dir entry.1 ∧
      kind entry.2 = true := by
  unfold entriesIn at h
  cases hl : Scan.listed t dir with
  | error e => rw [hl] at h; cases h
  | ok names =>
    rw [hl] at h
    cases h
    obtain ⟨name, path⟩ := entry
    simp only [List.mem_filter, List.mem_map, Prod.mk.injEq, Except.ok.injEq, exists_eq_left']
    constructor
    · rintro ⟨⟨_, ⟨hmem, hvisible⟩, rfl, rfl⟩, hkind⟩
      exact ⟨hmem, by simpa using hvisible, rfl, hkind⟩
    · rintro ⟨hmem, hvisible, rfl, hkind⟩
      exact ⟨⟨name, ⟨hmem, by simpa using hvisible⟩, rfl, rfl⟩, hkind⟩

theorem filesIn_of_isDirectory {dir : String} (h : t.isDirectory dir = true) :
    ∃ entries, filesIn t dir = .ok entries := by
  obtain ⟨names, hnames⟩ := FileTree.list_of_isDirectory h
  exact ⟨_, by rw [filesIn, entriesIn, Scan.listed, hnames]; rfl⟩

theorem holdsEntries_of_isDirectory {dir : String} (h : t.isDirectory dir = true) :
    ∃ b, x.holdsEntries t dir = .ok b := by
  obtain ⟨entries, he⟩ := filesIn_of_isDirectory h
  exact ⟨_, by rw [holdsEntries, he]; rfl⟩

/-- The directory of a package stands in the listing of the directory of its category. -/
theorem mem_subdirectoriesIn_of_isDirectory {n : QualifiedName}
    (h : t.isDirectory (x.packageDir n) = true) :
    ∃ dirs, subdirectoriesIn t (x.categoryDir n.category) = .ok dirs ∧
      (n.package.text, x.packageDir n) ∈ dirs := by
  obtain ⟨names, hnames, hmem⟩ := FileTree.mem_list_of_find_join
    (Path.join_ne_empty n.category.isName) n.package.isName (FileTree.isDirectory_iff.1 h)
  have hlisted : Scan.listed t (x.categoryDir n.category) = .ok names := by
    unfold Scan.listed
    rw [show t.list (x.categoryDir n.category) = .ok names from hnames]
  refine ⟨_, by rw [subdirectoriesIn, entriesIn, hlisted]; rfl, ?_⟩
  have hvisible := isHidden_of_isNameOf (Bool.and_eq_true_iff.1 n.package.valid).1
  exact (mem_entriesIn_iff (by rw [entriesIn, hlisted]; rfl)).2
    ⟨names, hlisted, hmem, hvisible, rfl, h⟩

/-! ## Listed categories -/

theorem withCategory_get?_ne {found : Table Category Bool} {c : Category}
    (h : found.get? c ≠ some true) (name : String) :
    (withCategory found name).get? c ≠ some true := by
  unfold withCategory
  split
  · rw [Table.get?_insert]
    split <;> simp [h]
  · exact h

theorem foldl_withCategory_get?_ne (names : List String) {found : Table Category Bool}
    {c : Category} (h : found.get? c ≠ some true) :
    (names.foldl withCategory found).get? c ≠ some true := by
  induction names generalizing found with
  | nil => exact h
  | cons name names ih => exact ih (withCategory_get?_ne h name)

theorem withSource_get?_ne {found found' : Table Category Bool × Bool} {dir : String}
    (hs : withSource t found dir = .ok found') {c : Category}
    (h : found.1.get? c ≠ some true) : found'.1.get? c ≠ some true := by
  unfold withSource at hs
  cases hc : Scan.content t (Path.join dir "categories") with
  | error e => rw [hc] at hs; cases hs
  | ok content =>
    rw [hc] at hs
    cases content with
    | none =>
      cases hs
      exact h
    | some content =>
      cases hs
      exact foldl_withCategory_get?_ne _ h

theorem foldlM_withSource_get?_ne (dirs : List String) {found found' : Table Category Bool × Bool}
    (hs : dirs.foldlM (withSource t) found = .ok found') {c : Category}
    (h : found.1.get? c ≠ some true) : found'.1.get? c ≠ some true := by
  induction dirs generalizing found with
  | nil =>
    cases hs
    exact h
  | cons dir dirs ih =>
    rw [List.foldlM_cons] at hs
    cases hd : withSource t found dir with
    | error e => rw [hd] at hs; cases hs
    | ok next =>
      rw [hd] at hs
      exact ih hs (withSource_get?_ne hd h)

theorem listedCategories_get?_ne {found : Table Category Bool}
    (h : x.listedCategories t = .ok found) (c : Category) : found.get? c ≠ some true := by
  unfold listedCategories at h
  cases hs : x.sources.foldlM (withSource t) (∅, false) with
  | error e => rw [hs] at h; cases h
  | ok result =>
    have hfound := foldlM_withSource_get?_ne x.sources hs (c := c) (by simp [EmptyCollection.emptyCollection])
    rw [hs] at h
    obtain ⟨found', listed⟩ := result
    cases listed with
    | true =>
      cases h
      exact hfound
    | false =>
      cases hd : subdirectoriesIn t x.location with
      | error e =>
        simp only [Bind.bind, Except.bind, hd] at h
        cases h
      | ok dirs =>
        simp only [Bind.bind, Except.bind, hd] at h
        cases h
        rw [← List.foldl_map]
        exact foldl_withCategory_get?_ne _ hfound

/-! ## Listed packages -/

theorem foldlM_withTreePackage_mem {dirs : List (String × String)} {found ps : List PackageName}
    (h : dirs.foldlM (x.withTreePackage t) found = .ok ps) {p : PackageName} :
    p ∈ ps ↔ p ∈ found ∨ ∃ entry ∈ dirs, p.text = entry.1 ∧ x.holdsEntries t entry.2 = .ok true := by
  induction dirs generalizing found with
  | nil =>
    cases h
    simp
  | cons entry dirs ih =>
    rw [List.foldlM_cons] at h
    unfold withTreePackage at h
    cases hp : PackageName.parse entry.1 with
    | error e =>
      have hne : ¬ p.text = entry.1 := by
        intro he
        rw [PackageName.parse_eq_ok_iff.2 he] at hp
        cases hp
      rw [hp] at h
      rw [ih h]
      simp [hne]
    | ok p' =>
      have htext := PackageName.parse_eq_ok_iff.1 hp
      rw [hp] at h
      cases hb : x.holdsEntries t entry.2 with
      | error e =>
        simp only [hb, Bind.bind, Except.bind] at h
        cases h
      | ok b =>
        simp only [hb, Bind.bind, Except.bind] at h
        rw [ih h]
        cases b with
        | false => simp [hb]
        | true =>
          have hp' : p = p' ↔ p.text = entry.1 := by
            rw [← htext]
            exact ⟨congrArg _, fun e => by cases p; cases p'; cases e; rfl⟩
          simp only [↓reduceIte, Ascending.mem_insert, hp', List.mem_cons, exists_eq_or_imp, hb,
            and_true]
          rw [or_assoc, or_left_comm]

/-- A directory of a category is one of its packages if it has a package name and holds entries. -/
theorem mem_listedPackages_iff (htree : x.layout = .tree) {c : Category} {ps : List PackageName}
    (h : x.listedPackages t c = .ok ps) {p : PackageName} :
    p ∈ ps ↔ t.isDirectory (x.packageDir ⟨c, p⟩) = true ∧
      x.holdsEntries t (x.packageDir ⟨c, p⟩) = .ok true := by
  unfold listedPackages at h
  cases hd : subdirectoriesIn t (x.categoryDir c) with
  | error e => rw [hd] at h; cases h
  | ok dirs =>
    rw [hd, htree] at h
    rw [foldlM_withTreePackage_mem h]
    constructor
    · rintro (hp | ⟨entry, hentry, htext, hholds⟩)
      · cases hp
      · obtain ⟨_, _, _, _, hpath, hdir⟩ := (mem_entriesIn_iff hd).1 hentry
        rw [← htext] at hpath
        rw [hpath] at hdir hholds
        exact ⟨hdir, hholds⟩
    · rintro ⟨hdir, hholds⟩
      obtain ⟨dirs', hd', hmem⟩ := mem_subdirectoriesIn_of_isDirectory (n := ⟨c, p⟩) hdir
      rw [hd] at hd'
      cases hd'
      exact Or.inr ⟨_, hmem, rfl, hholds⟩

theorem foldlM_withTreePackage_ok {dirs : List (String × String)}
    (h : ∀ entry ∈ dirs, t.isDirectory entry.2 = true) {found : List PackageName}
    (hfound : Ascending.Sorted found) :
    ∃ ps, dirs.foldlM (x.withTreePackage t) found = .ok ps ∧ Ascending.Sorted ps := by
  induction dirs generalizing found with
  | nil => exact ⟨found, rfl, hfound⟩
  | cons entry dirs ih =>
    obtain ⟨b, hb⟩ := holdsEntries_of_isDirectory (x := x) (h entry List.mem_cons_self)
    have hrest : ∀ e ∈ dirs, t.isDirectory e.2 = true := fun e he => h e (List.mem_cons_of_mem _ he)
    rw [List.foldlM_cons]
    unfold withTreePackage
    cases PackageName.parse entry.1 with
    | error e => exact ih hrest hfound
    | ok p =>
      simp only [hb, Bind.bind, Except.bind]
      cases b with
      | false => exact ih hrest hfound
      | true => exact ih hrest (Ascending.sorted_insert hfound)

/-- The packages of a category are listed, in ascending order, if its directory can be. -/
theorem listedPackages_ok {c : Category} {dirs : List (String × String)}
    (h : subdirectoriesIn t (x.categoryDir c) = .ok dirs) :
    ∃ ps, x.listedPackages t c = .ok ps ∧ Ascending.Sorted ps := by
  unfold listedPackages
  rw [h]
  cases x.layout with
  | tree =>
    refine foldlM_withTreePackage_ok (fun entry hentry => ?_) Ascending.sorted_nil
    obtain ⟨_, _, _, _, _, hdir⟩ := (mem_entriesIn_iff h).1 hentry
    exact hdir
  | installed => exact ⟨_, rfl, Ascending.sorted_ofList _⟩

theorem listedPackages_error {c : Category} {e : Error}
    (h : subdirectoriesIn t (x.categoryDir c) = .error e) : x.listedPackages t c = .error e := by
  unfold listedPackages
  rw [h]
  rfl

theorem sorted_listedPackages {c : Category} {ps : List PackageName}
    (h : x.listedPackages t c = .ok ps) : Ascending.Sorted ps := by
  cases hd : subdirectoriesIn t (x.categoryDir c) with
  | error e =>
    rw [listedPackages_error hd] at h
    cases h
  | ok dirs =>
    obtain ⟨ps', hps', hsorted⟩ := listedPackages_ok hd
    rw [hps'] at h
    cases h
    exact hsorted

/-! ## Packages that exist -/

theorem packagesIn_eq {c : Category} {b : Bool} (h : x.isCategory t c = .ok b) :
    x.packagesIn t c = if b then x.listedPackages t c else .ok [] := by
  unfold packagesIn
  rw [h]
  rfl

theorem packagesIn_of_error {c : Category} {e : Error} (h : x.listedCategories t = .error e) :
    x.packagesIn t c = .error e := by
  unfold packagesIn isCategory
  rw [h]
  rfl

theorem holds_of_error {n : QualifiedName} {e : Error} (h : x.listedCategories t = .error e) :
    x.holds t n = .error e := by
  unfold holds isCategory
  rw [h]
  rfl

theorem holds_of_not_isCategory {n : QualifiedName}
    (h : x.isCategory t n.category = .ok false) : x.holds t n = .ok false := by
  unfold holds
  rw [h]
  rfl

theorem holds_tree {n : QualifiedName} (hc : x.isCategory t n.category = .ok true)
    (hlayout : x.layout = .tree) : x.holds t n = .ok (t.isDirectory (x.packageDir n)) := by
  unfold holds
  rw [hc, hlayout]
  rfl

theorem holds_installed {n : QualifiedName} (hc : x.isCategory t n.category = .ok true)
    (hlayout : x.layout = .installed) :
    x.holds t n = (x.listedPackages t n.category).map fun ps => decide (n.package ∈ ps) := by
  unfold holds
  rw [hc, hlayout]
  rfl

theorem isCategory_of_holds {n : QualifiedName} (h : x.holds t n = .ok true) :
    x.isCategory t n.category = .ok true := by
  unfold holds at h
  cases hc : x.isCategory t n.category with
  | error e => rw [hc] at h; cases h
  | ok b =>
    rw [hc] at h
    cases b with
    | true => rfl
    | false => cases h

theorem isDirectory_of_holds (hlayout : x.layout = .tree) {n : QualifiedName}
    (h : x.holds t n = .ok true) : t.isDirectory (x.packageDir n) = true := by
  rw [holds_tree (isCategory_of_holds h) hlayout] at h
  exact Except.ok.inj h

theorem holds_of_mem_listedPackages {c : Category} {ps : List PackageName} {p : PackageName}
    (hc : x.isCategory t c = .ok true) (hps : x.listedPackages t c = .ok ps) (hp : p ∈ ps) :
    x.holds t ⟨c, p⟩ = .ok true := by
  cases hlayout : x.layout with
  | tree => rw [holds_tree hc hlayout, ((mem_listedPackages_iff hlayout hps).1 hp).1]
  | installed =>
    rw [holds_installed hc hlayout, hps]
    exact congrArg Except.ok (decide_eq_true hp)

/-- A directory in a tree that has the name of a package and holds no entry files. -/
structure IsBare (x : Index) (t : FileTree) (n : QualifiedName) : Prop where
  layout : x.layout = .tree
  category : x.isCategory t n.category = .ok true
  directory : t.isDirectory (x.packageDir n) = true
  entries : x.holdsEntries t (x.packageDir n) = .ok false

/-- What exists is listed, bare directories apart. -/
theorem mem_listedPackages_of_holds {n : QualifiedName} {ps : List PackageName}
    (h : x.holds t n = .ok true) (hbare : ¬ x.IsBare t n)
    (hps : x.listedPackages t n.category = .ok ps) : n.package ∈ ps := by
  have hc := isCategory_of_holds h
  cases hlayout : x.layout with
  | tree =>
    have hdir := isDirectory_of_holds hlayout h
    obtain ⟨b, hb⟩ := holdsEntries_of_isDirectory (x := x) hdir
    cases b with
    | true => exact (mem_listedPackages_iff hlayout hps).2 ⟨hdir, hb⟩
    | false => exact absurd ⟨hlayout, hc, hdir, hb⟩ hbare
  | installed =>
    rw [holds_installed hc hlayout, hps] at h
    exact of_decide_eq_true (Except.ok.inj h)

/-! ## Versions of packages that exist -/

theorem versionsIn_of_holds {n : QualifiedName} {b : Bool} (h : x.holds t n = .ok b) :
    x.versionsIn t n = if b then x.listedVersions t n else .ok [] := by
  unfold versionsIn
  rw [h]
  rfl

theorem versionsIn_of_error {n : QualifiedName} {e : Error} (h : x.holds t n = .error e) :
    x.versionsIn t n = .error e := by
  unfold versionsIn
  rw [h]
  rfl

/-- The entries of a category name no version of a package that they do not name. -/
theorem listedVersions_of_notMem {n : QualifiedName} {ps : List PackageName}
    (hlayout : x.layout = .installed) (hps : x.listedPackages t n.category = .ok ps)
    (hn : n.package ∉ ps) : x.listedVersions t n = .ok [] := by
  unfold listedPackages at hps
  unfold listedVersions
  cases hd : subdirectoriesIn t (x.categoryDir n.category) with
  | error e => rw [hd] at hps; cases hps
  | ok dirs =>
    rw [hd, hlayout] at hps
    cases hps
    rw [hlayout]
    have hnone : (readings dirs).filter (fun r => r.1 = n.package) = [] := by
      rw [List.filter_eq_nil_iff]
      intro r hr he
      refine hn (Ascending.mem_ofList.2 (List.mem_map.2 ⟨r, hr, ?_⟩))
      exact of_decide_eq_true he
    simp only [Except.map, hnone]
    rfl

theorem IsBare.holds {n : QualifiedName} (h : x.IsBare t n) : x.holds t n = .ok true := by
  rw [holds_tree h.category h.layout, h.directory]

theorem foldl_withEntryFile_of_none {p : PackageName} {entries : List (String × String)}
    (h : ∀ entry ∈ entries, stripSuffix? x.generator.format.extension entry.1 = none) :
    entries.foldl (x.withEntryFile p) [] = [] := by
  induction entries with
  | nil => rfl
  | cons entry entries ih =>
    obtain ⟨hentry, hentries⟩ := List.forall_mem_cons.1 h
    rw [List.foldl_cons, withEntryFile, hentry]
    exact ih hentries

/-- The files in a bare directory are files of other kinds. -/
theorem IsBare.exists_files {n : QualifiedName} (h : x.IsBare t n) :
    ∃ entries, filesIn t (x.packageDir n) = .ok entries ∧
      ∀ entry ∈ entries, stripSuffix? x.generator.format.extension entry.1 = none := by
  obtain ⟨entries, hentries⟩ := filesIn_of_isDirectory h.directory
  have hany := h.entries
  rw [holdsEntries, hentries] at hany
  refine ⟨entries, hentries, fun entry hentry => ?_⟩
  simpa using List.any_eq_false.1 (Except.ok.inj hany) entry hentry

/-- Without entry files there are no versions. -/
theorem IsBare.versionsIn {n : QualifiedName} (h : x.IsBare t n) : x.versionsIn t n = .ok [] := by
  obtain ⟨entries, hentries, hnone⟩ := h.exists_files
  rw [versionsIn_of_holds h.holds, if_pos rfl, listedVersions, h.layout, hentries]
  exact congrArg Except.ok (foldl_withEntryFile_of_none hnone)

theorem recordIn_of_error {n : QualifiedName} {v : Version} {e : Error}
    (h : x.versionsIn t n = .error e) : x.recordIn t n v = .error e := by
  unfold recordIn
  rw [h]
  rfl

theorem recordIn_of_mem {n : QualifiedName} {v : Version} {vs : List Version}
    (h : x.versionsIn t n = .ok vs) (hv : v ∈ vs) : x.recordIn t n v =
      (x.generator.generate x.location n v : Scan IndexMemo Metadata).found t := by
  unfold recordIn
  rw [h]
  exact if_pos hv

theorem recordIn_of_notMem {n : QualifiedName} {v : Version} {vs : List Version}
    (h : x.versionsIn t n = .ok vs) (hv : v ∉ vs) :
    x.recordIn t n v = .error (.noSuchPackage n.text v.text x.repository) := by
  unfold recordIn
  rw [h]
  exact if_neg hv

end Index

end PackageCatalog
