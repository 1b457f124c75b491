import Mathlib.Data.List.Nodup
import PackageCatalog.Proofs.Files.Distinct
import PackageCatalog.Proofs.Index.Entries

/-!
# Malformed names

What an index may find a malformed name for: a line of a list of categories, or an entry of a
directory.  It looks for them level by level, at the categories, at the packages of a category and
at the versions of a package, and every level has offences of its own:

    ls.Nodup → ((ls.flatMap (x.offencesAt t)).map Prod.fst).Nodup        (nodup_offences)

if each place has one entry, and no two sources have the same list of categories with a malformed
line.
-/

namespace PackageCatalog.Index

open FileTree (placeOf)

variable {x : Index} {t : FileTree}

/-! ## Offences -/

/-- A line of a list of categories, by the place of the list and the number of the line, or an entry
of a directory, by its place. -/
inductive Offence where
  | line (list : Place) (k : Nat)
  | entry (place : Place)

/-- There is a list of categories that can be read, or there is none. -/
def ReadsList (t : FileTree) (dir : String) : Prop :=
  (Scan.content t (categoriesFile dir)).isOk = true

/-- The offence is in the files, and its name is refused with this error. -/
inductive Offends (x : Index) (t : FileTree) : Offence → Error → Prop where
  | line {dir text line : String} {k : Nat} {e : Error} (hdir : dir ∈ x.sources)
      (hread : t.readText (categoriesFile dir) = .ok text)
      (hline : (Config.entryLines text)[k]? = some line) (h : Category.parse line = .error e) :
      Offends x t (.line (placeOf (categoriesFile dir)) k) e
  | category {dirs : List (String × String)} {entry : String × String} {e : Error}
      (hunlisted : ∀ dir ∈ x.sources, t.isFile (categoriesFile dir) = false)
      (hdirs : subdirectoriesIn t x.location = .ok dirs) (hentry : entry ∈ dirs)
      (hreserved : entry.1 ∉ reservedDirs) (h : Category.parse entry.1 = .error e) :
      Offends x t (.entry (placeOf x.location ++ [entry.1])) e
  | package {c : Category} {dirs : List (String × String)} {entry : String × String} {e : Error}
      (hlayout : x.layout = .tree) (hdirs : subdirectoriesIn t (x.categoryDir c) = .ok dirs)
      (hentry : entry ∈ dirs) (h : PackageName.parse entry.1 = .error e) :
      Offends x t (.entry (placeOf (x.categoryDir c) ++ [entry.1])) e
  | installed {c : Category} {dirs : List (String × String)} {entry : String × String} {e : Error}
      (hlayout : x.layout = .installed) (hdirs : subdirectoriesIn t (x.categoryDir c) = .ok dirs)
      (hentry : entry ∈ dirs) (h : splitVersioned entry.1 = .error e) :
      Offends x t (.entry (placeOf (x.categoryDir c) ++ [entry.1])) e
  | version {n : QualifiedName} {files : List (String × String)} {text path : String} {e : Error}
      (hlayout : x.layout = .tree) (hfiles : filesIn t (x.packageDir n) = .ok files)
      (hentry : (n.package.text ++ "-" ++ text ++ x.generator.format.extension, path) ∈ files)
      (h : Version.parse text = .error e) :
      Offends x t (.entry (placeOf (x.packageDir n) ++
        [n.package.text ++ "-" ++ text ++ x.generator.format.extension])) e

/-! ## Levels -/

/-- What an index looks through at once. -/
inductive Level where
  | categories
  | packages (c : Category)
  | versions (n : QualifiedName)

def failure? {α : Type} : Except Error α → Option Error
  | .ok _ => none
  | .error e => some e

/-- What went wrong for the members of a list. -/
def failures {α β : Type} (read : α → Except Error β) (as : List α) : List Error :=
  as.filterMap fun a => failure? (read a)

/-- The lines of a list of categories, none if it cannot be read. -/
def listLines (t : FileTree) (dir : String) : List String :=
  match Scan.content t (categoriesFile dir) with
  | .ok (some text) => Config.entryLines text
  | _ => []

/-- The malformed lines of a list of categories, each with what is wrong with it. -/
def lineOffences (t : FileTree) (dir : String) : List (Offence × Error) :=
  (listLines t dir).zipIdx.filterMap fun line =>
    (failure? (Category.parse line.1)).map fun e =>
      (.line (placeOf (categoriesFile dir)) line.2, e)

/-- The entries of a directory with malformed names, each with what is wrong with it. -/
def entryOffences {β : Type} (read : String → Except Error β) (dir : String)
    (entries : List (String × String)) : List (Offence × Error) :=
  entries.filterMap fun entry =>
    (failure? (read entry.1)).map fun e => (.entry (placeOf dir ++ [entry.1]), e)

/-- What the name of an entry file of a package is read as; files of other kinds are passed over. -/
def entryReading (x : Index) (p : PackageName) (name : String) : Except Error (Option Version) :=
  match stripSuffix? x.generator.format.extension name with
  | none => .ok none
  | some stem =>
    match stripStart? (p.text ++ "-") stem with
    | none => .ok none
    | some text => (Version.parse text).map some

/-- Some source has a list of categories. -/
def isListed (x : Index) (t : FileTree) : Bool :=
  x.sources.any fun dir => t.isFile (categoriesFile dir)

/-- The directories of the location that should be categories. -/
def candidates (x : Index) (t : FileTree) : List (String × String) :=
  ((subdirectoriesIn t x.location).toOption.getD []).filter fun entry => entry.1 ∉ reservedDirs

/-- The offences of a level, in the order in which they are found. -/
def offencesAt (x : Index) (t : FileTree) : Level → List (Offence × Error)
  | .categories =>
    if x.isListed t then x.sources.flatMap (lineOffences t)
    else entryOffences Category.parse x.location (x.candidates t)
  | .packages c =>
    let dirs := (subdirectoriesIn t (x.categoryDir c)).toOption.getD []
    match x.layout with
    | .tree => entryOffences PackageName.parse (x.categoryDir c) dirs
    | .installed => entryOffences splitVersioned (x.categoryDir c) dirs
  | .versions n =>
    entryOffences (x.entryReading n.package) (x.packageDir n)
      ((filesIn t (x.packageDir n)).toOption.getD [])

def errorsAt (x : Index) (t : FileTree) (l : Level) : List Error :=
  (x.offencesAt t l).map Prod.snd

theorem failure?_eq_some_iff {α : Type} {r : Except Error α} {e : Error} :
    failure? r = some e ↔ r = .error e := by
  cases r <;> simp [failure?]

theorem map_snd_lineOffences (t : FileTree) (dir : String) :
    (lineOffences t dir).map Prod.snd = failures Category.parse (listLines t dir) := by
  unfold lineOffences failures
  rw [← List.zipIdx_map_fst 0 (listLines t dir), List.filterMap_map, List.map_filterMap,
    List.zipIdx_map_fst]
  simp [Function.comp_def]

theorem map_snd_entryOffences {β : Type} (read : String → Except Error β) (dir : String)
    (entries : List (String × String)) : (entryOffences read dir entries).map Prod.snd =
      failures (fun entry : String × String => read entry.1) entries := by
  unfold entryOffences failures
  rw [List.map_filterMap]
  simp [Function.comp_def]

theorem getElem?_listLines_eq_some_iff {dir line : String} {k : Nat} :
    (listLines t dir)[k]? = some line ↔ ∃ text, t.readText (categoriesFile dir) = .ok text ∧
      (Config.entryLines text)[k]? = some line := by
  unfold listLines
  simp only [← Scan.content_eq_some_iff]
  cases Scan.content t (categoriesFile dir) with
  | error e => simp
  | ok content => cases content <;> simp

theorem mem_lineOffences_iff {dir : String} {item : Offence × Error} :
    item ∈ lineOffences t dir ↔ ∃ text k line, t.readText (categoriesFile dir) = .ok text ∧
      (Config.entryLines text)[k]? = some line ∧ Category.parse line = .error item.2 ∧
      item.1 = .line (placeOf (categoriesFile dir)) k := by
  obtain ⟨offence, e⟩ := item
  unfold lineOffences
  simp only [List.mem_filterMap, Option.map_eq_some_iff, failure?_eq_some_iff, Prod.mk.injEq,
    Prod.exists, List.mk_mem_zipIdx_iff_getElem?, getElem?_listLines_eq_some_iff]
  constructor
  · rintro ⟨line, k, ⟨text, htext, hline⟩, e, he, rfl, rfl⟩
    exact ⟨text, k, line, htext, hline, he, rfl⟩
  · rintro ⟨text, k, line, htext, hline, he, rfl⟩
    exact ⟨line, k, ⟨text, htext, hline⟩, e, he, rfl, rfl⟩

theorem mem_entryOffences_iff {β : Type} {read : String → Except Error β} {dir : String}
    {entries : List (String × String)} {item : Offence × Error} :
    item ∈ entryOffences read dir entries ↔ ∃ entry ∈ entries, read entry.1 = .error item.2 ∧
      item.1 = .entry (placeOf dir ++ [entry.1]) := by
  obtain ⟨offence, e⟩ := item
  unfold entryOffences
  simp only [List.mem_filterMap, Option.map_eq_some_iff, failure?_eq_some_iff, Prod.mk.injEq]
  constructor
  · rintro ⟨entry, hentry, e, he, rfl, rfl⟩
    exact ⟨entry, hentry, he, rfl⟩
  · rintro ⟨entry, hentry, he, rfl⟩
    exact ⟨entry, hentry, e, he, rfl, rfl⟩

/-! ## Offences are in the files -/

theorem mem_getD_toOption_iff {α : Type} {r : Except Error (List α)} {a : α} :
    a ∈ r.toOption.getD [] ↔ ∃ as, r = .ok as ∧ a ∈ as := by
  cases r with
  | ok as => simp [Except.toOption]
  | error e => simp [Except.toOption]

theorem entryReading_eq_error_iff {p : PackageName} {name : String} {e : Error} :
    x.entryReading p name = .error e ↔
      ∃ text, name = p.text ++ "-" ++ text ++ x.generator.format.extension ∧
        Version.parse text = .error e := by
  unfold entryReading
  constructor
  · intro h
    split at h
    case h_1 => cases h
    case h_2 stem hstem =>
      split at h
      case h_1 => cases h
      case h_2 text htext =>
        rw [stripSuffix?_eq_some_iff] at hstem
        rw [stripStart?_eq_some_iff] at htext
        refine ⟨text, by rw [hstem, htext], ?_⟩
        cases hv : Version.parse text with
        | ok v =>
          rw [hv] at h
          cases h
        | error e' =>
          rw [hv] at h
          cases h
          rfl
  · rintro ⟨text, rfl, he⟩
    rw [stripSuffix?_eq_some_iff.2 rfl]
    simp only
    rw [stripStart?_eq_some_iff.2 rfl]
    simp only
    rw [he]
    rfl

/-- The offences at a level are in the files. -/
theorem offends_of_mem {l : Level} (hlayout : ∀ n, l = .versions n → x.layout = .tree)
    {item : Offence × Error} (h : item ∈ x.offencesAt t l) : Offends x t item.1 item.2 := by
  obtain ⟨offence, e⟩ := item
  cases l with
  | categories =>
    unfold offencesAt at h
    simp only at h
    split at h
    case isTrue =>
      obtain ⟨dir, hdir, h⟩ := List.mem_flatMap.1 h
      obtain ⟨text, k, line, htext, hline, he, rfl⟩ := mem_lineOffences_iff.1 h
      exact .line hdir htext hline he
    case isFalse hunlisted =>
      obtain ⟨entry, hentry, he, rfl⟩ := mem_entryOffences_iff.1 h
      obtain ⟨hentry, hreserved⟩ := List.mem_filter.1 hentry
      obtain ⟨dirs, hdirs, hentry⟩ := mem_getD_toOption_iff.1 hentry
      refine .category (fun dir hdir => ?_) hdirs hentry (of_decide_eq_true hreserved) he
      simpa using List.any_eq_false.1 (Bool.eq_false_iff.2 hunlisted) dir hdir
  | packages c =>
    unfold offencesAt at h
    simp only at h
    split at h
    case h_1 htree =>
      obtain ⟨entry, hentry, he, rfl⟩ := mem_entryOffences_iff.1 h
      obtain ⟨dirs, hdirs, hentry⟩ := mem_getD_toOption_iff.1 hentry
      exact .package htree hdirs hentry he
    case h_2 hinstalled =>
      obtain ⟨entry, hentry, he, rfl⟩ := mem_entryOffences_iff.1 h
      obtain ⟨dirs, hdirs, hentry⟩ := mem_getD_toOption_iff.1 hentry
      exact .installed hinstalled hdirs hentry he
  | versions n =>
    obtain ⟨entry, hentry, he, rfl⟩ := mem_entryOffences_iff.1 h
    obtain ⟨files, hfiles, hentry⟩ := mem_getD_toOption_iff.1 hentry
    obtain ⟨text, hname, he⟩ := entryReading_eq_error_iff.1 he
    obtain ⟨name, path⟩ := entry
    subst hname
    exact .version (hlayout n rfl) hfiles hentry he

/-! ## No offence is found twice -/

theorem nodup_map_filterMap {α β γ : Type} {f : α → Option β} {g : α → γ} {h : β → γ}
    (hfg : ∀ a b, f a = some b → h b = g a) {as : List α} (has : (as.map g).Nodup) :
    ((as.filterMap f).map h).Nodup := by
  refine List.Nodup.sublist ?_ has
  clear has
  induction as with
  | nil => exact .slnil
  | cons a as ih =>
    rw [List.filterMap_cons]
    cases hf : f a with
    | none => exact ih.cons (g a)
    | some b =>
      simp only [List.map_cons]
      rw [hfg a b hf]
      exact ih.cons_cons (g a)

theorem nodup_lineOffences (t : FileTree) (dir : String) :
    ((lineOffences t dir).map Prod.fst).Nodup := by
  refine nodup_map_filterMap (g := fun line => .line (placeOf (categoriesFile dir)) line.2)
    (fun line item hitem => ?_) ?_
  · obtain ⟨e, -, rfl⟩ := Option.map_eq_some_iff.1 hitem
    rfl
  · have hnumbers : ((listLines t dir).zipIdx.map Prod.snd).Nodup := by
      rw [List.zipIdx_map_snd]
      exact List.nodup_range'
    rw [← Function.comp_def (Offence.line (placeOf (categoriesFile dir))) Prod.snd, ← List.map_map]
    exact hnumbers.map fun k k' h => by cases h; rfl

theorem nodup_entryOffences {β : Type} (read : String → Except Error β) (dir : String)
    {entries : List (String × String)} (h : (entries.map Prod.fst).Nodup) :
    ((entryOffences read dir entries).map Prod.fst).Nodup := by
  refine nodup_map_filterMap (g := fun entry => .entry (placeOf dir ++ [entry.1]))
    (fun entry item hitem => ?_) ?_
  · obtain ⟨e, -, rfl⟩ := Option.map_eq_some_iff.1 hitem
    rfl
  · rw [← Function.comp_def (fun name => Offence.entry (placeOf dir ++ [name])) Prod.fst,
      ← List.map_map]
    refine h.map fun name name' hname => ?_
    rw [Offence.entry.injEq, List.append_cancel_left_eq] at hname
    exact List.singleton_inj.1 hname

theorem nodup_listed (hplaces : t.entries.keys.Nodup) {dir : String} {names : List String}
    (h : Scan.listed t dir = .ok names) : names.Nodup := by
  unfold Scan.listed at h
  cases hlist : t.list dir with
  | ok names' =>
    rw [hlist] at h
    cases h
    obtain ⟨place, -, -, rfl⟩ := FileTree.list_eq_ok_iff.1 hlist
    exact FileTree.nodup_namesAt hplaces place
  | error problem =>
    rw [hlist] at h
    cases problem with
    | missing =>
      cases h
      exact .nil
    | _ => cases h

theorem nodup_entriesIn (hplaces : t.entries.keys.Nodup) {kind : String → Bool} {dir : String}
    {entries : List (String × String)} (h : entriesIn t kind dir = .ok entries) :
    (entries.map Prod.fst).Nodup := by
  obtain ⟨names, hnames, rfl⟩ := Scan.map_eq_ok_iff.1 h
  refine .sublist (List.filter_sublist.map Prod.fst) ?_
  rw [List.map_map]
  simpa [Function.comp_def] using (nodup_listed hplaces hnames).filter _

theorem nodup_getD_entriesIn (hplaces : t.entries.keys.Nodup) (kind : String → Bool)
    (dir : String) : (((entriesIn t kind dir).toOption.getD []).map Prod.fst).Nodup := by
  cases h : entriesIn t kind dir with
  | ok entries => exact nodup_entriesIn hplaces h
  | error e => exact .nil

/-- A list of categories can be read and has a malformed line. -/
def Malformed (t : FileTree) (dir : String) : Prop :=
  ∃ text, t.readText (categoriesFile dir) = .ok text ∧
    ∃ line ∈ Config.entryLines text, ∃ e, Category.parse line = .error e

/-- A list of categories with a malformed line is that of two sources. -/
def Shares (x : Index) (t : FileTree) : Prop :=
  ∃ dir dir', [dir, dir'].Sublist x.sources ∧
    placeOf (categoriesFile dir) = placeOf (categoriesFile dir') ∧ Malformed t dir ∧
      Malformed t dir'

theorem exists_mem_lineOffences_iff {dir : String} :
    (∃ item, item ∈ lineOffences t dir) ↔ Malformed t dir := by
  constructor
  · rintro ⟨item, hitem⟩
    obtain ⟨text, k, line, htext, hline, he, -⟩ := mem_lineOffences_iff.1 hitem
    exact ⟨text, htext, line, List.mem_of_getElem? hline, item.2, he⟩
  · rintro ⟨text, htext, line, hline, e, he⟩
    obtain ⟨k, hk⟩ := List.mem_iff_getElem?.1 hline
    exact ⟨(.line (placeOf (categoriesFile dir)) k, e),
      mem_lineOffences_iff.2 ⟨text, k, line, htext, hk, he, rfl⟩⟩

/-- The text that can be read at a place is the same for all paths there. -/
theorem readText_congr {path path' text text' : String} (hplace : placeOf path = placeOf path')
    (h : t.readText path = .ok text) (h' : t.readText path' = .ok text') : text = text' := by
  rw [FileTree.readText_eq_ok_iff, FileTree.find_eq_ok_iff] at h h'
  obtain ⟨p, hp, htext⟩ := h
  obtain ⟨p', hp', htext'⟩ := h'
  rw [FileTree.locate_eq_placeOf hp, hplace, ← FileTree.locate_eq_placeOf hp', htext'] at htext
  cases htext
  rfl

/-- The lines of all sources are told apart unless two sources have the same list. -/
theorem nodup_lines_iff :
    ((x.sources.flatMap (lineOffences t)).map Prod.fst).Nodup ↔ ¬ x.Shares t := by
  rw [List.map_flatMap, List.nodup_flatMap, and_iff_right fun dir _ => nodup_lineOffences t dir,
    List.pairwise_iff_forall_sublist]
  constructor
  · rintro hdisjoint ⟨dir, dir', hsub, hplace, hdir, text', htext', -⟩
    obtain ⟨item, hitem⟩ := exists_mem_lineOffences_iff.2 hdir
    refine hdisjoint hsub (List.mem_map_of_mem hitem) ?_
    obtain ⟨text, k, line, htext, hline, he, hoffence⟩ := mem_lineOffences_iff.1 hitem
    obtain rfl := readText_congr hplace htext htext'
    rw [hplace] at hoffence
    exact List.mem_map_of_mem (mem_lineOffences_iff.2 ⟨text, k, line, htext', hline, he, hoffence⟩)
  · intro hshares dir dir' hsub offence h h'
    obtain ⟨item, hitem, rfl⟩ := List.mem_map.1 h
    obtain ⟨item', hitem', hsame⟩ := List.mem_map.1 h'
    obtain ⟨-, k, -, -, -, -, hline⟩ := mem_lineOffences_iff.1 hitem
    obtain ⟨-, k', -, -, -, -, hline'⟩ := mem_lineOffences_iff.1 hitem'
    rw [hline, hline', Offence.line.injEq] at hsame
    exact hshares ⟨dir, dir', hsub, hsame.1.symm, exists_mem_lineOffences_iff.1 ⟨item, hitem⟩,
      exists_mem_lineOffences_iff.1 ⟨item', hitem'⟩⟩

/-- The offences of a level are told apart. -/
theorem nodup_offencesAt (hplaces : t.entries.keys.Nodup) {l : Level}
    (hshares : l = .categories → ¬ x.Shares t) : ((x.offencesAt t l).map Prod.fst).Nodup := by
  cases l with
  | categories =>
    unfold offencesAt
    simp only
    split
    case isTrue => exact nodup_lines_iff.2 (hshares rfl)
    case isFalse =>
      exact nodup_entryOffences _ _
        ((nodup_getD_entriesIn hplaces _ _).sublist (List.filter_sublist.map Prod.fst))
  | packages c =>
    unfold offencesAt
    simp only
    split
    case h_1 => exact nodup_entryOffences _ _ (nodup_getD_entriesIn hplaces _ _)
    case h_2 => exact nodup_entryOffences _ _ (nodup_getD_entriesIn hplaces _ _)
  | versions n => exact nodup_entryOffences _ _ (nodup_getD_entriesIn hplaces _ _)

/-! ## Levels apart -/

/-- Where the location is. -/
def root (x : Index) : Place :=
  if x.location = "" then FileTree.workingPlace else placeOf x.location

/-- The way from the location to the directory of a level. -/
def Level.way : Level → Place
  | .categories => []
  | .packages c => [c.text]
  | .versions n => [n.category.text, n.package.text]

theorem Level.way_injective : Function.Injective Level.way := by
  intro l l' h
  cases l with
  | categories => cases l' <;> first | rfl | cases h
  | packages c =>
    cases l' with
    | packages c' => rw [Category.text_inj.1 (List.cons.inj h).1]
    | _ => simp [way] at h
  | versions n =>
    cases l' with
    | versions n' =>
      obtain ⟨hc, h⟩ := List.cons.inj h
      obtain ⟨c, p⟩ := n
      obtain ⟨c', p'⟩ := n'
      obtain rfl := Category.text_inj.1 hc
      obtain rfl := PackageName.text_inj.1 (List.cons.inj h).1
      rfl
    | _ => simp [way] at h

theorem placeOf_name {name : String} (h : Path.IsName name) :
    placeOf name = FileTree.workingPlace ++ [name] := by
  have hstart : FileTree.startOf [name] = FileTree.workingPlace := by
    simp [FileTree.startOf, h.ne_empty]
  unfold placeOf
  rw [Path.parts_of_isName h, hstart]
  exact FileTree.stride_name h _

theorem placeOf_categoryDir (c : Category) : placeOf (x.categoryDir c) = x.root ++ [c.text] := by
  unfold categoryDir root
  by_cases hlocation : x.location = ""
  · rw [if_pos hlocation, hlocation, Path.join_of_isName c.isName]
    exact placeOf_name c.isName
  · rw [if_neg hlocation]
    exact FileTree.placeOf_join hlocation c.isName

theorem placeOf_packageDir (n : QualifiedName) :
    placeOf (x.packageDir n) = x.root ++ [n.category.text, n.package.text] := by
  have hdir : x.categoryDir n.category ≠ "" := Path.join_ne_empty n.category.isName
  unfold packageDir
  rw [FileTree.placeOf_join hdir n.package.isName, placeOf_categoryDir, List.append_assoc]
  rfl

/-- Nothing is listed where a path leads nowhere. -/
theorem candidates_eq_nil (h : x.location = "") : x.candidates t = [] := by
  unfold candidates subdirectoriesIn entriesIn
  rw [h]
  rfl

/-- An offence tells its level. -/
theorem place_of_mem {l : Level} {offence : Offence}
    (h : offence ∈ (x.offencesAt t l).map Prod.fst) :
    (l = .categories ∧ ∃ list k, offence = .line list k) ∨
      ∃ name, offence = .entry (x.root ++ l.way ++ [name]) := by
  obtain ⟨item, hitem, rfl⟩ := List.mem_map.1 h
  clear h
  cases l with
  | categories =>
    unfold offencesAt at hitem
    simp only at hitem
    split at hitem
    case isTrue =>
      obtain ⟨dir, -, hitem⟩ := List.mem_flatMap.1 hitem
      obtain ⟨-, k, -, -, -, -, hline⟩ := mem_lineOffences_iff.1 hitem
      exact .inl ⟨rfl, _, k, hline⟩
    case isFalse =>
      obtain ⟨entry, hentry, -, hplace⟩ := mem_entryOffences_iff.1 hitem
      have hlocation : x.location ≠ "" := by
        intro hempty
        rw [candidates_eq_nil hempty] at hentry
        cases hentry
      refine .inr ⟨entry.1, ?_⟩
      rw [hplace, root, if_neg hlocation, Level.way, List.append_nil]
  | packages c =>
    unfold offencesAt at hitem
    simp only at hitem
    split at hitem
    all_goals
      obtain ⟨entry, -, -, hplace⟩ := mem_entryOffences_iff.1 hitem
      exact .inr ⟨entry.1, by rw [hplace, placeOf_categoryDir]; rfl⟩
  | versions n =>
    obtain ⟨entry, -, -, hplace⟩ := mem_entryOffences_iff.1 hitem
    exact .inr ⟨entry.1, by rw [hplace, placeOf_packageDir]; rfl⟩

theorem level_eq_of_mem {l l' : Level} {offence : Offence}
    (h : offence ∈ (x.offencesAt t l).map Prod.fst)
    (h' : offence ∈ (x.offencesAt t l').map Prod.fst) : l = l' := by
  rcases place_of_mem h with ⟨rfl, list, k, rfl⟩ | ⟨name, rfl⟩
  · rcases place_of_mem h' with ⟨rfl, -⟩ | ⟨name', hplace⟩
    · rfl
    · cases hplace
  · rcases place_of_mem h' with ⟨-, list, k, hplace⟩ | ⟨name', hplace⟩
    · cases hplace
    · obtain ⟨hway, -⟩ := List.append_inj' (Offence.entry.inj hplace) rfl
      exact Level.way_injective (List.append_cancel_left hway)

/-- The offences of different levels are told apart. -/
theorem nodup_offences (hplaces : t.entries.keys.Nodup) {ls : List Level} (hls : ls.Nodup)
    (hshares : .categories ∈ ls → ¬ x.Shares t) :
    ((ls.flatMap (x.offencesAt t)).map Prod.fst).Nodup := by
  rw [List.map_flatMap, List.nodup_flatMap]
  refine ⟨fun l hl => nodup_offencesAt hplaces fun h => hshares (h ▸ hl), ?_⟩
  refine List.Pairwise.imp (fun {l l'} hne => ?_) hls
  intro offence h h'
  exact hne (level_eq_of_mem h h')

end PackageCatalog.Index
