import PackageCatalog.Proofs.Index.Learning
import PackageCatalog.Proofs.Index.Offences

/-!
# What is recorded

Scans of an index pass over malformed names and record them.  `Records s t r es` says that whatever
the memo, the scan ends with `r` and the errors `es` join the diagnostics.  To look through a level
records the errors of its offences, each time it is done:

    Records x.scanCategories t (x.listedCategories t) (x.errorsAt t .categories)  if that succeeds
    Records (x.loadPackages c) t r (x.errorsAt t (.packages c))
    Records (x.readVersions n) t r (x.errorsAt t (.versions n))

If a list of categories cannot be read, the errors of the lists before it are recorded although the
categories do not become known (`Interrupted.records`).
-/

namespace PackageCatalog.Index

open Scan (Reads)

variable {x : Index} {t : FileTree} {α β : Type}

/-! ## Recording -/

/-- Whatever the memo, the result is `r`, and the errors join the diagnostics. -/
def Records (s : Scan IndexMemo α) (t : FileTree) (r : Except Error α) (es : List Error) : Prop :=
  ∀ j, ∃ j', s.on t j = (r, j') ∧ j'.memo.diagnostics = j.memo.diagnostics ++ es

theorem records_of_reads {s : Scan IndexMemo α} {r : Except Error α}
    (h : Reads IndexMemo.diagnostics s t r) : Records s t r [] := by
  intro j
  obtain ⟨j', hj', hsame⟩ := h.on_eq j
  exact ⟨j', hj', by rw [hsame, List.append_nil]⟩

theorem records_pure (a : α) : Records (pure a) t (.ok a) [] := records_of_reads (Scan.reads_pure a)

theorem records_skip (path : String) (e : Error) : Records (skip path e) t (.ok ()) [e] :=
  fun _ => ⟨_, rfl, rfl⟩

theorem records_modifyMemo {f : IndexMemo → IndexMemo}
    (h : ∀ memo, (f memo).diagnostics = memo.diagnostics) :
    Records (Scan.modifyMemo f) t (.ok ()) [] :=
  fun _ => ⟨_, rfl, by rw [h, List.append_nil]⟩

theorem Records.bind_ok {s : Scan IndexMemo α} {a : α} {f : α → Scan IndexMemo β}
    {r : Except Error β} {es es' : List Error} (hs : Records s t (.ok a) es)
    (hf : Records (f a) t r es') : Records (s >>= f) t r (es ++ es') := by
  intro j
  obtain ⟨j₁, hj₁, hes⟩ := hs j
  obtain ⟨j₂, hj₂, hes'⟩ := hf j₁
  exact ⟨j₂, (Scan.on_bind_of_ok hj₁ f).trans hj₂, by rw [hes', hes, List.append_assoc]⟩

theorem Records.bind_error {s : Scan IndexMemo α} {e : Error} {es : List Error}
    (hs : Records s t (.error e) es) (f : α → Scan IndexMemo β) :
    Records (s >>= f) t (.error e) es := by
  intro j
  obtain ⟨j', hj', hes⟩ := hs j
  exact ⟨j', Scan.on_bind_of_error hj' f, hes⟩

/-- What goes on after a scan may record nothing more. -/
theorem Records.bind_silent {s : Scan IndexMemo α} {a : α} {f : α → Scan IndexMemo β}
    {r : Except Error β} {es : List Error} (hs : Records s t (.ok a) es)
    (hf : Records (f a) t r []) : Records (s >>= f) t r es := by
  have h := hs.bind_ok hf
  rwa [List.append_nil] at h

/-- A loop that goes to its end records what its rounds record. -/
theorem Records.foldlM {f : β → α → Scan IndexMemo β} {g : β → α → Except Error β}
    {es : α → List Error} (as : List α) (h : ∀ b, ∀ a ∈ as, Records (f b a) t (g b a) (es a))
    {b b' : β} (hb : as.foldlM g b = .ok b') :
    Records (as.foldlM f b) t (.ok b') (as.flatMap es) := by
  induction as generalizing b with
  | nil =>
    cases hb
    exact records_pure _
  | cons a as ih =>
    rw [List.foldlM_cons] at hb ⊢
    obtain ⟨next, hnext, hb⟩ := Scan.bind_eq_ok_iff.1 hb
    have hround := h b a List.mem_cons_self
    rw [hnext] at hround
    exact hround.bind_ok (ih (fun b a ha => h b a (List.mem_cons_of_mem _ ha)) hb)

theorem failures_eq_flatMap (read : α → Except Error β) (as : List α) :
    failures read as = as.flatMap fun a => (failure? (read a)).toList :=
  List.filterMap_eq_flatMap_toList ..

/-! ## Categories -/

theorem records_addCategory (found : Table Category Bool) (path name : String) :
    Records (addCategory found path name) t (.ok (withCategory found name))
      (failure? (Category.parse name)).toList := by
  unfold addCategory withCategory
  cases Category.parse name with
  | ok c => exact records_pure _
  | error e => exact (records_skip path e).bind_ok (records_pure found)

theorem records_addCategories (found : Table Category Bool) (path name : α → String)
    (as : List α) :
    Records (as.foldlM (fun found a => addCategory found (path a) (name a)) found) t
      (.ok (as.foldl (fun found a => withCategory found (name a)) found))
      (failures (fun a => Category.parse (name a)) as) := by
  rw [failures_eq_flatMap]
  exact .foldlM as (fun found a _ => records_addCategory found (path a) (name a))
    (Scan.foldlM_ok _ as found)

theorem records_addSource (found : Table Category Bool × Bool) (dir : String) :
    Records (addSource found dir) t (withSource t found dir)
      ((lineOffences t dir).map Prod.snd) := by
  have hread : Records _ t _ [] :=
    records_of_reads (Scan.reads_readLineFile (t := t) (Path.join dir "categories"))
  rw [map_snd_lineOffences, listLines, categoriesFile]
  unfold addSource withSource
  cases hc : Scan.content t (Path.join dir "categories") with
  | error e =>
    rw [hc] at hread
    exact hread.bind_error _
  | ok content =>
    rw [hc] at hread
    cases content with
    | none => exact hread.bind_ok (records_pure found)
    | some content =>
      exact hread.bind_ok
        ((records_addCategories found.1 (fun _ => _) id _).bind_silent (records_pure _))

/-- The errors of the lists of categories. -/
theorem errorsAt_categories_of_listed (h : x.isListed t = true) :
    x.errorsAt t .categories = x.sources.flatMap fun dir => (lineOffences t dir).map Prod.snd := by
  rw [errorsAt, offencesAt, if_pos h, List.map_flatMap]

theorem isListed_iff {result : Table Category Bool × Bool}
    (h : x.sources.foldlM (withSource t) (∅, false) = .ok result) :
    x.isListed t = result.2 := by
  have hlisted := (contains_foldlM_withSource h (c := ⟨"a", by decide⟩)).2
  rw [Bool.eq_iff_iff, isListed, List.any_eq_true, hlisted]
  simp

/-- Where no source has a list, no line is malformed. -/
theorem lineOffences_eq_nil {dir : String} (h : t.isFile (categoriesFile dir) = false) :
    lineOffences t dir = [] := by
  rw [List.eq_nil_iff_forall_not_mem]
  intro item hitem
  obtain ⟨text, -, -, htext, -⟩ := mem_lineOffences_iff.1 hitem
  have hfile : t.isFile (categoriesFile dir) = true :=
    FileTree.isFile_iff.2 ⟨_, FileTree.readText_eq_ok_iff.1 htext, nofun⟩
  rw [h] at hfile
  cases hfile

theorem lineErrors_eq_nil (h : x.isListed t = false) :
    (x.sources.flatMap fun dir => (lineOffences t dir).map Prod.snd) = [] := by
  rw [List.flatMap_eq_nil_iff]
  intro dir hdir
  rw [lineOffences_eq_nil, List.map_nil]
  simpa using List.any_eq_false.1 h dir hdir

theorem records_sources {result : Table Category Bool × Bool}
    (h : x.sources.foldlM (withSource t) (∅, false) = .ok result) :
    Records (x.sources.foldlM addSource (∅, false)) t (.ok result)
      (x.sources.flatMap fun dir => (lineOffences t dir).map Prod.snd) :=
  .foldlM x.sources (fun found dir _ => records_addSource found dir) h

/-- To find the categories is to record the errors of their level. -/
theorem records_scanCategories {found : Table Category Bool}
    (h : x.listedCategories t = .ok found) :
    Records x.scanCategories t (.ok found) (x.errorsAt t .categories) := by
  unfold listedCategories at h
  unfold scanCategories
  obtain ⟨⟨result, listed⟩, hsources, h⟩ := Scan.bind_eq_ok_iff.1 h
  have hlisted := isListed_iff hsources
  have hrecords := records_sources hsources
  cases listed with
  | true =>
    cases h
    rw [errorsAt_categories_of_listed hlisted]
    exact hrecords.bind_silent (records_pure _)
  | false =>
    rw [lineErrors_eq_nil hlisted] at hrecords
    obtain ⟨dirs, hdirs, h⟩ := Scan.bind_eq_ok_iff.1 h
    cases h
    have hread : Records (subdirectories x.location) t _ [] :=
      records_of_reads (reads_listing Scan.reads_isDirectory x.location)
    rw [show entriesIn t t.isDirectory x.location = .ok dirs from hdirs] at hread
    rw [errorsAt, offencesAt, if_neg (Bool.eq_false_iff.1 hlisted), map_snd_entryOffences,
      candidates, hdirs]
    exact hrecords.bind_ok (hread.bind_ok (records_addCategories result Prod.snd Prod.fst _))

/-- A list of categories cannot be read, but one before it can and has a malformed line. -/
def Interrupted (x : Index) (t : FileTree) : Prop :=
  ∃ before dir after, x.sources = before ++ dir :: after ∧ (∀ d ∈ before, ReadsList t d) ∧
    ¬ ReadsList t dir ∧ ∃ d ∈ before, Malformed t d

theorem withSource_of_unreadable {dir : String} (h : ¬ ReadsList t dir)
    (found : Table Category Bool × Bool) :
    ∃ e, withSource t found dir = .error e ∧ lineOffences t dir = [] := by
  unfold ReadsList at h
  unfold lineOffences listLines withSource
  rw [← categoriesFile]
  cases hc : Scan.content t (categoriesFile dir) with
  | ok content =>
    rw [hc] at h
    exact absurd rfl h
  | error e => exact ⟨e, rfl, rfl⟩

theorem withSource_of_readable {dir : String} (h : ReadsList t dir)
    (found : Table Category Bool × Bool) : ∃ found', withSource t found dir = .ok found' := by
  unfold ReadsList categoriesFile at h
  unfold withSource
  cases hc : Scan.content t (Path.join dir "categories") with
  | error e =>
    rw [hc] at h
    cases h
  | ok content => cases content <;> exact ⟨_, rfl⟩

theorem foldlM_withSource_of_readable {dirs : List String} (h : ∀ dir ∈ dirs, ReadsList t dir)
    (found : Table Category Bool × Bool) :
    ∃ found', dirs.foldlM (withSource t) found = .ok found' := by
  induction dirs generalizing found with
  | nil => exact ⟨found, rfl⟩
  | cons dir dirs ih =>
    obtain ⟨hdir, hdirs⟩ := List.forall_mem_cons.1 h
    obtain ⟨next, hnext⟩ := withSource_of_readable hdir found
    rw [List.foldlM_cons, hnext]
    exact ih hdirs next

/-- The lists before the first that cannot be read are read and their errors recorded. -/
theorem records_unreadable {before after : List String} {dir : String}
    (hsources : x.sources = before ++ dir :: after) (hbefore : ∀ d ∈ before, ReadsList t d)
    (hdir : ¬ ReadsList t dir) : ∃ e, x.listedCategories t = .error e ∧
      Records x.scanCategories t (.error e)
        (before.flatMap fun d => (lineOffences t d).map Prod.snd) := by
  obtain ⟨found, hfound⟩ := foldlM_withSource_of_readable hbefore (∅, false)
  obtain ⟨e, he, hnone⟩ := withSource_of_unreadable hdir found
  have hlast := records_addSource (t := t) found dir
  have hrecords := Records.foldlM before
    (fun found dir _ => records_addSource (t := t) found dir) hfound
  rw [he, hnone] at hlast
  refine ⟨e, ?_, ?_⟩
  · unfold listedCategories
    rw [hsources, List.foldlM_append, hfound]
    simp only [Bind.bind, Except.bind, List.foldlM_cons, he]
  · unfold scanCategories
    rw [hsources, List.foldlM_append]
    refine Records.bind_error ?_ _
    have hall := hrecords.bind_ok (f := fun found => (dir :: after).foldlM addSource found)
      (hlast.bind_error _)
    rwa [List.map_nil, List.append_nil] at hall

instance (t : FileTree) (dir : String) : Decidable (ReadsList t dir) :=
  inferInstanceAs (Decidable (_ = true))

theorem exists_unreadable (h : ¬ ∀ dir ∈ x.sources, ReadsList t dir) :
    ∃ before dir after, x.sources = before ++ dir :: after ∧ (∀ d ∈ before, ReadsList t d) ∧
      ¬ ReadsList t dir := by
  cases hfirst : x.sources.find? fun dir => ¬ ReadsList t dir with
  | none => exact absurd (fun dir hdir => by simpa using List.find?_eq_none.1 hfirst dir hdir) h
  | some dir =>
    obtain ⟨hdir, before, after, hsources, hbefore⟩ := List.find?_eq_some_iff_append.1 hfirst
    refine ⟨before, dir, after, hsources, fun d hd => ?_, of_decide_eq_true hdir⟩
    simpa using hbefore d hd

/-- If the categories are not found, nothing is recorded unless a list was read before. -/
theorem records_of_not_interrupted {e : Error} (h : x.listedCategories t = .error e)
    (hn : ¬ x.Interrupted t) : Records x.scanCategories t (.error e) [] := by
  by_cases hreadable : ∀ dir ∈ x.sources, ReadsList t dir
  · obtain ⟨⟨result, listed⟩, hsources⟩ := foldlM_withSource_of_readable hreadable (∅, false)
    have hlisted := isListed_iff hsources
    have hrecords := records_sources hsources
    unfold listedCategories at h
    rw [hsources] at h
    cases listed with
    | true => cases h
    | false =>
      have hread : Records (subdirectories x.location) t _ [] :=
        records_of_reads (reads_listing Scan.reads_isDirectory x.location)
      rw [lineErrors_eq_nil hlisted] at hrecords
      unfold scanCategories
      cases hdirs : subdirectoriesIn t x.location with
      | ok dirs =>
        simp only [Bind.bind, Except.bind, hdirs] at h
        cases h
      | error e' =>
        simp only [Bind.bind, Except.bind, hdirs] at h
        cases h
        rw [show entriesIn t t.isDirectory x.location = .error e from hdirs] at hread
        exact hrecords.bind_ok (hread.bind_error _)
  · obtain ⟨before, dir, after, hsources, hbefore, hdir⟩ := exists_unreadable hreadable
    obtain ⟨e', he', hrecords⟩ := records_unreadable hsources hbefore hdir
    obtain rfl := Except.error.inj (h.symm.trans he')
    have hnone : (before.flatMap fun d => (lineOffences t d).map Prod.snd) = [] := by
      rw [List.flatMap_eq_nil_iff]
      intro d hd
      rw [List.map_eq_nil_iff, List.eq_nil_iff_forall_not_mem]
      intro item hitem
      exact hn ⟨before, dir, after, hsources, hbefore, hdir, d, hd,
        exists_mem_lineOffences_iff.1 ⟨item, hitem⟩⟩
    rwa [hnone] at hrecords

/-- Errors are recorded although the categories are not found. -/
theorem Interrupted.records (h : x.Interrupted t) : ∃ e es, x.listedCategories t = .error e ∧
    Records x.scanCategories t (.error e) es ∧ es ≠ [] := by
  obtain ⟨before, dir, after, hsources, hbefore, hdir, d, hd, hmalformed⟩ := h
  obtain ⟨e, he, hrecords⟩ := records_unreadable hsources hbefore hdir
  refine ⟨e, _, he, hrecords, fun hnone => ?_⟩
  obtain ⟨item, hitem⟩ := exists_mem_lineOffences_iff.2 hmalformed
  rw [List.map_eq_nil_iff.1 (List.flatMap_eq_nil_iff.1 hnone d hd)] at hitem
  cases hitem

/-! ## Packages -/

theorem records_addTreePackage (found : List PackageName) (entry : String × String) :
    Records (x.addTreePackage found entry) t (x.withTreePackage t found entry)
      (failure? (PackageName.parse entry.1)).toList := by
  unfold addTreePackage withTreePackage
  cases PackageName.parse entry.1 with
  | ok p =>
    have hread : Reads IndexMemo.diagnostics (x.hasEntryFiles entry.2) t
        (x.holdsEntries t entry.2) := by
      unfold hasEntryFiles holdsEntries
      rw [bind_pure_comp]
      exact (reads_listing Scan.reads_isFile entry.2).map _
    exact records_of_reads (hread.bind fun _ _ => Scan.reads_pure _)
  | error e => exact (records_skip entry.2 e).bind_ok (records_pure found)

theorem records_addInstalledPackage (c : Category) (found : List PackageName)
    (entry : String × String) : Records (addInstalledPackage c found entry) t
      (.ok (match splitVersioned entry.1 with
        | .ok (p, _) => Ascending.insert p found
        | .error _ => found)) (failure? (splitVersioned entry.1)).toList := by
  unfold addInstalledPackage
  cases splitVersioned entry.1 with
  | ok reading =>
    have hadd : Records (Scan.modifyMemo (·.addVersion ⟨c, reading.1⟩ reading.2)) t (.ok ()) [] :=
      records_modifyMemo fun _ => rfl
    exact hadd.bind_ok (records_pure (Ascending.insert reading.1 found))
  | error e => exact (records_skip entry.2 e).bind_ok (records_pure found)

theorem errorsAt_packages {c : Category} {dirs : List (String × String)}
    (h : subdirectoriesIn t (x.categoryDir c) = .ok dirs) : x.errorsAt t (.packages c) =
      match x.layout with
      | .tree => failures (fun entry => PackageName.parse entry.1) dirs
      | .installed => failures (fun entry => splitVersioned entry.1) dirs := by
  unfold errorsAt offencesAt
  simp only
  rw [h]
  cases x.layout with
  | tree => exact map_snd_entryOffences ..
  | installed => exact map_snd_entryOffences ..

theorem errorsAt_packages_of_error {c : Category} {e : Error}
    (h : subdirectoriesIn t (x.categoryDir c) = .error e) : x.errorsAt t (.packages c) = [] := by
  unfold errorsAt offencesAt
  simp only
  rw [h]
  cases x.layout with
  | tree => rfl
  | installed => rfl

/-- To look through a category is to record the errors of its level. -/
theorem records_loadPackages (c : Category) :
    ∃ r, Records (x.loadPackages c) t r (x.errorsAt t (.packages c)) := by
  have hread : Records (subdirectories (x.categoryDir c)) t
      (subdirectoriesIn t (x.categoryDir c)) [] :=
    records_of_reads (reads_listing Scan.reads_isDirectory (x.categoryDir c))
  have hmark (ps : List PackageName) : Records (Scan.modifyMemo fun memo =>
      (ps.foldl (fun m p => m.addPackage ⟨c, p⟩) memo).setLoaded c) t (.ok ()) [] := by
    refine records_modifyMemo fun memo => ?_
    exact (IndexMemo.ext_iff.1 (IndexMemo.foldl_addPackage ps c memo).2).2.2.2.2
  unfold loadPackages
  cases hdirs : subdirectoriesIn t (x.categoryDir c) with
  | error e =>
    rw [hdirs] at hread
    rw [errorsAt_packages_of_error hdirs]
    exact ⟨.error e, hread.bind_error _⟩
  | ok dirs =>
    rw [hdirs] at hread
    rw [errorsAt_packages hdirs]
    obtain ⟨ps, hps, -⟩ := listedPackages_ok (x := x) hdirs
    unfold listedPackages at hps
    rw [hdirs] at hps
    refine ⟨.ok (), hread.bind_ok ?_⟩
    cases hlayout : x.layout with
    | tree =>
      rw [hlayout] at hps
      have hloop := Records.foldlM dirs
        (fun found entry _ => records_addTreePackage (x := x) (t := t) found entry) hps
      rw [← failures_eq_flatMap] at hloop
      exact hloop.bind_silent (hmark ps)
    | installed =>
      have hloop := Records.foldlM dirs
        (fun found entry _ => records_addInstalledPackage (t := t) c found entry)
        (Scan.foldlM_ok _ dirs [])
      rw [← failures_eq_flatMap] at hloop
      exact hloop.bind_silent (hmark _)

/-! ## Versions -/

theorem records_addEntryFile (p : PackageName) (found : List Version) (entry : String × String) :
    Records (x.addEntryFile p found entry) t (.ok (x.withEntryFile p found entry))
      (failure? (x.entryReading p entry.1)).toList := by
  unfold addEntryFile withEntryFile entryReading
  cases stripSuffix? x.generator.format.extension entry.1 with
  | none => exact records_pure found
  | some stem =>
    cases hstart : stripStart? (p.text ++ "-") stem with
    | none =>
      simp only [hstart]
      exact (records_of_reads (Scan.reads_warn _)).bind_ok (records_pure found)
    | some text =>
      simp only [hstart]
      cases Version.parse text with
      | ok v => exact records_pure _
      | error e => exact (records_skip entry.2 e).bind_ok (records_pure found)

theorem errorsAt_versions {n : QualifiedName} {entries : List (String × String)}
    (h : filesIn t (x.packageDir n) = .ok entries) : x.errorsAt t (.versions n) =
      failures (fun entry => x.entryReading n.package entry.1) entries := by
  unfold errorsAt offencesAt
  simp only
  rw [h]
  exact map_snd_entryOffences ..

/-- To look through a package is to record the errors of its level. -/
theorem records_readVersions {n : QualifiedName} (h : t.isDirectory (x.packageDir n) = true) :
    Records (x.readVersions n) t (.ok ()) (x.errorsAt t (.versions n)) := by
  obtain ⟨entries, hentries⟩ := filesIn_of_isDirectory h
  have hread : Records (files (x.packageDir n)) t (filesIn t (x.packageDir n)) [] :=
    records_of_reads (reads_listing Scan.reads_isFile (x.packageDir n))
  have hloop := Records.foldlM entries
    (fun found entry _ => records_addEntryFile (x := x) (t := t) n.package found entry)
    (Scan.foldlM_ok _ entries [])
  have hinsert (vs : List Version) : Records (Scan.modifyMemo fun memo =>
      { memo with versions := memo.versions.insert n vs }) t (.ok ()) [] :=
    records_modifyMemo fun _ => rfl
  rw [hentries] at hread
  rw [← failures_eq_flatMap, ← errorsAt_versions hentries] at hloop
  exact hread.bind_ok (hloop.bind_silent (hinsert _))

/-- A bare directory has no malformed entry. -/
theorem IsBare.errorsAt_eq_nil {n : QualifiedName} (h : x.IsBare t n) :
    x.errorsAt t (.versions n) = [] := by
  obtain ⟨entries, hentries, hnone⟩ := h.exists_files
  rw [errorsAt_versions hentries, failures, List.filterMap_eq_nil_iff]
  intro entry hentry
  unfold entryReading
  rw [hnone entry hentry]
  rfl

end PackageCatalog.Index
