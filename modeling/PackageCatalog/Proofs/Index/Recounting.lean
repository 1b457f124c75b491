import PackageCatalog.Proofs.Index.Recall
import PackageCatalog.Proofs.Metadata.Failures

/-!
# What an index says of versions

Whether a version exists and what its record is, an index takes from its memo and, where the memo is
silent, from the files (`versionsFrom`, `metadataFrom`).  It says the same however often it is asked
on one tree, and in whatever order, even if the memo is of another tree (`versions_yields_from`,
`metadata_yields_from`).

A record is remembered only of a version that is known (`Learned.grounded`), so that the two
questions never disagree about what exists:

    v is not one of the versions of n  →  its record is missing        (metadataFrom_of_notMem)
    v is one of the versions of n      →  its record is not missing    (metadataFrom_of_mem)
-/

namespace PackageCatalog.Index

open IndexMemo (knowledge)
open Scan (Yields)

variable {x : Index} {t : FileTree} {start memo memo' : IndexMemo}

/-! ## From the memo and the files -/

/-- The categories that are remembered or, if none are, those that are listed. -/
def categoriesFrom (x : Index) (t : FileTree) (memo : IndexMemo) :
    Except Error (Table Category Bool) :=
  match memo.categories with
  | some table => .ok table
  | none => x.listedCategories t

/-- Whether a package of a tree is found. -/
def findsFrom (x : Index) (t : FileTree) (memo : IndexMemo) (n : QualifiedName) :
    Except Error Bool :=
  (x.categoriesFrom t memo).map fun table =>
    match table.get? n.category with
    | some loaded => memo.knowsPackage n || (!loaded && t.isDirectory (x.packageDir n))
    | none => false

def versionsFrom (x : Index) (t : FileTree) (memo : IndexMemo) (n : QualifiedName) :
    Except Error (List Version) :=
  match x.layout with
  | .tree =>
    match memo.versions.get? n with
    | some vs => .ok vs
    | none => do if ← x.findsFrom t memo n then x.listedVersions t n else return []
  | .installed => do
    match (← x.categoriesFrom t memo).get? n.category with
    | some true => return memo.versionsOf n
    | some false => x.listedVersions t n
    | none => return []

def metadataFrom (x : Index) (t : FileTree) (memo : IndexMemo) (n : QualifiedName) (v : Version) :
    Except Error Metadata :=
  match memo.metadata.get? (n, v) with
  | some m => .ok m
  | none => do
    if v ∈ (← x.versionsFrom t memo n) then
      (x.generator.generate x.location n v : Scan IndexMemo Metadata).found t
    else throw (.noSuchPackage n.text v.text x.repository)

theorem versionsFrom_tree (htree : x.layout = .tree) (n : QualifiedName) :
    x.versionsFrom t memo n = match memo.versions.get? n with
      | some vs => .ok vs
      | none => do if ← x.findsFrom t memo n then x.listedVersions t n else return [] := by
  unfold versionsFrom
  rw [htree]

theorem versionsFrom_installed (hinstalled : x.layout = .installed) {table : Table Category Bool}
    (htable : memo.categories = some table) (n : QualifiedName) :
    x.versionsFrom t memo n = match table.get? n.category with
      | some true => .ok (memo.versionsOf n)
      | some false => x.listedVersions t n
      | none => .ok [] := by
  unfold versionsFrom categoriesFrom
  rw [hinstalled, htable]
  rfl

theorem versionsFrom_congr (hcategories : x.categoriesFrom t memo' = x.categoriesFrom t memo)
    (hpackages : memo'.packages = memo.packages) (hversions : memo'.versions = memo.versions)
    (n : QualifiedName) : x.versionsFrom t memo' n = x.versionsFrom t memo n := by
  unfold versionsFrom findsFrom IndexMemo.knowsPackage IndexMemo.packagesOf IndexMemo.versionsOf
  rw [hcategories, hpackages, hversions]

/-! ## Saying the same -/

/-- What is remembered hangs together, and the index says the same of versions as at the start. -/
structure SaysAs (x : Index) (t : FileTree) (start memo : IndexMemo) : Prop where
  coherent : Coherent x memo
  versions : ∀ n, x.versionsFrom t memo n = x.versionsFrom t start n
  metadata : ∀ n v, x.metadataFrom t memo n v = x.metadataFrom t start n v

theorem SaysAs.refl (h : Coherent x memo) : SaysAs x t memo memo :=
  ⟨h, fun _ => rfl, fun _ _ => rfl⟩

theorem SaysAs.trans {memo'' : IndexMemo} (h : SaysAs x t memo memo')
    (h' : SaysAs x t memo' memo'') : SaysAs x t memo memo'' :=
  ⟨h'.coherent, fun n => (h'.versions n).trans (h.versions n),
    fun n v => (h'.metadata n v).trans (h.metadata n v)⟩

/-- Where no record was read, the versions decide. -/
theorem SaysAs.of_versions (h : Coherent x memo')
    (hversions : ∀ n, x.versionsFrom t memo' n = x.versionsFrom t memo n)
    (hmetadata : memo'.metadata = memo.metadata) : SaysAs x t memo memo' := by
  refine ⟨h, hversions, fun n v => ?_⟩
  unfold metadataFrom
  rw [hmetadata, hversions]

theorem SaysAs.of_knowledge (h : Coherent x memo) (hknow : knowledge memo' = knowledge memo) :
    SaysAs x t memo memo' := by
  obtain ⟨hcategories, hpackages, hversions, hmetadata⟩ := known_of_knowledge hknow
  refine .of_versions ((Looks.nothing (t := t) hknow).coherent h) (fun n => ?_) hmetadata
  refine versionsFrom_congr ?_ hpackages hversions n
  unfold categoriesFrom
  rw [hcategories]

/-! ## Looking around -/

/-- The categories are known, unless they cannot be listed; all else is as before. -/
structure Categorized (x : Index) (t : FileTree) (memo memo' : IndexMemo) : Prop where
  categories : memo'.categories = (x.categoriesFrom t memo).toOption
  packages : memo'.packages = memo.packages
  versions : memo'.versions = memo.versions
  metadata : memo'.metadata = memo.metadata

theorem Categorized.categoriesFrom (h : Categorized x t memo memo') :
    x.categoriesFrom t memo' = x.categoriesFrom t memo := by
  have hcategories := h.categories
  unfold Index.categoriesFrom at hcategories ⊢
  cases hc : memo.categories with
  | some table =>
    rw [hc] at hcategories
    rw [hcategories]
    rfl
  | none =>
    rw [hc] at hcategories
    cases hlisted : x.listedCategories t with
    | ok table =>
      rw [hlisted] at hcategories
      rw [hcategories]
      rfl
    | error e =>
      rw [hlisted] at hcategories
      rw [hcategories]
      rfl

theorem Categorized.findsFrom (h : Categorized x t memo memo') (n : QualifiedName) :
    x.findsFrom t memo' n = x.findsFrom t memo n := by
  unfold Index.findsFrom IndexMemo.knowsPackage IndexMemo.packagesOf
  rw [h.categoriesFrom, h.packages]

theorem needCategories_on_from (j : Journal IndexMemo) :
    ∃ j', x.needCategories.on t j = ((x.categoriesFrom t j.memo).map fun _ => (), j') ∧
      Categorized x t j.memo j'.memo := by
  unfold needCategories categoriesFrom
  rw [Scan.on_bind_of_ok (Scan.on_memo t j)]
  cases hc : j.memo.categories with
  | some table =>
    refine ⟨j, rfl, ?_, rfl, rfl, rfl⟩
    rw [categoriesFrom, hc]
    rfl
  | none =>
    obtain ⟨j', hj', hknow⟩ := (reads_scanCategories (x := x) (t := t)).on_eq j
    obtain ⟨hcategories, hpackages, hversions, hmetadata⟩ := known_of_knowledge hknow
    simp only [Option.isNone_none, ↓reduceIte]
    cases hfound : x.listedCategories t with
    | error e =>
      rw [hfound] at hj'
      refine ⟨j', Scan.on_bind_of_error hj' _, ?_, hpackages, hversions, hmetadata⟩
      rw [hcategories, categoriesFrom, hc, hfound]
      rfl
    | ok found =>
      rw [hfound] at hj'
      refine ⟨_, Scan.on_bind_of_ok hj' _, ?_, hpackages, hversions, hmetadata⟩
      rw [categoriesFrom, hc, hfound]
      rfl

theorem Categorized.saysAs {j j' : Journal IndexMemo} {r : Except Error Unit}
    (h : Categorized x t j.memo j'.memo) (hneed : x.needCategories.on t j = (r, j'))
    (hm : Coherent x j.memo) : SaysAs x t j.memo j'.memo := by
  have hlooked : Looked x t j.memo j'.memo := by
    have := needCategories_looked (x := x) (t := t) j.memo j .refl
    rwa [hneed] at this
  exact .of_versions (Learned.coherent hlooked.learned hm)
    (versionsFrom_congr h.categoriesFrom h.packages h.versions) h.metadata

/-! ### In a tree -/

theorem findsFrom_of_known {table : Table Category Bool} (htable : memo.categories = some table)
    (n : QualifiedName) :
    x.findsFrom t memo n = .ok (match table.get? n.category with
      | some loaded => memo.knowsPackage n || (!loaded && t.isDirectory (x.packageDir n))
      | none => false) := by
  unfold findsFrom categoriesFrom
  rw [htable]
  rfl

theorem findsFrom_addPackage {table : Table Category Bool} (htable : memo.categories = some table)
    {n : QualifiedName} (hflag : table.get? n.category = some false)
    (hd : t.isDirectory (x.packageDir n) = true) (n' : QualifiedName) :
    x.findsFrom t (memo.addPackage n) n' = x.findsFrom t memo n' := by
  have hadded : (memo.addPackage n).categories = some table := htable
  rw [findsFrom_of_known htable, findsFrom_of_known hadded]
  by_cases hn : n' = n
  · subst hn
    simp [hflag, hd]
  · have hknows : (memo.addPackage n).knowsPackage n' = memo.knowsPackage n' := by
      unfold IndexMemo.knowsPackage
      rw [decide_eq_decide, IndexMemo.mem_packagesOf_addPackage]
      exact or_iff_right hn
    rw [hknows]

/-- To look for a package of a tree changes neither what is found nor what versions are known. -/
theorem lookupPackage_on_tree (htree : x.layout = .tree) (j : Journal IndexMemo)
    (n : QualifiedName) :
    ∃ j', (x.lookupPackage n).on t j = (x.findsFrom t j.memo n, j') ∧
      (∀ n', x.findsFrom t j'.memo n' = x.findsFrom t j.memo n') ∧
      j'.memo.versions = j.memo.versions ∧ j'.memo.metadata = j.memo.metadata := by
  obtain ⟨j₁, hj₁, hsame⟩ := needCategories_on_from (x := x) (t := t) j
  rw [lookupPackage_eq]
  cases hc : x.categoriesFrom t j.memo with
  | error e =>
    rw [hc] at hj₁
    rw [Scan.on_bind_of_error hj₁, findsFrom, hc]
    exact ⟨j₁, rfl, hsame.findsFrom, hsame.versions, hsame.metadata⟩
  | ok table =>
    have htable : j₁.memo.categories = some table := by
      rw [hsame.categories, hc]
      rfl
    rw [hc] at hj₁
    rw [Scan.on_bind_of_ok hj₁, Scan.on_bind_of_ok (Scan.on_memo t j₁), htable, Option.bind_some,
      ← hsame.findsFrom n, findsFrom_of_known htable]
    cases hflag : table.get? n.category with
    | none => exact ⟨j₁, rfl, hsame.findsFrom, hsame.versions, hsame.metadata⟩
    | some loaded =>
      simp only
      by_cases hknown : loaded || j₁.memo.knowsPackage n
      · rw [if_pos hknown]
        refine ⟨j₁, ?_, hsame.findsFrom, hsame.versions, hsame.metadata⟩
        cases loaded with
        | true => simp
        | false =>
          rw [show j₁.memo.knowsPackage n = true from hknown]
          rfl
      · rw [if_neg hknown]
        simp only [Bool.or_eq_true, not_or, Bool.not_eq_true] at hknown
        obtain ⟨rfl, hknows⟩ := hknown
        rw [probePackage, htree, hknows]
        simp only
        rw [Scan.on_bind_of_ok (Scan.on_isDirectory (x.packageDir n) t j₁)]
        cases hd : t.isDirectory (x.packageDir n) with
        | false => exact ⟨j₁, rfl, hsame.findsFrom, hsame.versions, hsame.metadata⟩
        | true =>
          exact ⟨_, rfl, fun n' =>
            (findsFrom_addPackage htable hflag hd n').trans (hsame.findsFrom n'),
            hsame.versions, hsame.metadata⟩

/-- The versions that the entry files of a package give are kept, if they can be listed. -/
theorem readVersions_on_from (htree : x.layout = .tree) (j : Journal IndexMemo)
    (n : QualifiedName) :
    ∃ j', (x.readVersions n).on t j = ((x.listedVersions t n).map fun _ => (), j') ∧
      j'.memo.categories = j.memo.categories ∧ j'.memo.packages = j.memo.packages ∧
      j'.memo.metadata = j.memo.metadata ∧
      j'.memo.versions = match x.listedVersions t n with
        | .ok vs => j.memo.versions.insert n vs
        | .error _ => j.memo.versions := by
  obtain ⟨j₁, hj₁, hknow₁⟩ := (reads_files (t := t) (x.packageDir n)).on_eq j
  obtain ⟨hcategories₁, hpackages₁, hversions₁, hmetadata₁⟩ := known_of_knowledge hknow₁
  unfold readVersions listedVersions
  rw [htree]
  cases hentries : filesIn t (x.packageDir n) with
  | error e =>
    rw [hentries] at hj₁
    exact ⟨j₁, Scan.on_bind_of_error hj₁ _, hcategories₁, hpackages₁, hmetadata₁, hversions₁⟩
  | ok entries =>
    rw [hentries] at hj₁
    obtain ⟨j₂, hj₂, hknow₂⟩ := (Scan.Reads.foldlM (t := t) entries
      (fun found entry _ => reads_addEntryFile (x := x) n.package found entry) []).on_eq j₁
    obtain ⟨hcategories₂, hpackages₂, hversions₂, hmetadata₂⟩ := known_of_knowledge hknow₂
    rw [Scan.foldlM_ok] at hj₂
    rw [Scan.on_bind_of_ok hj₁, Scan.on_bind_of_ok hj₂]
    refine ⟨_, rfl, hcategories₂.trans hcategories₁, hpackages₂.trans hpackages₁,
      hmetadata₂.trans hmetadata₁, ?_⟩
    show j₂.memo.versions.insert n _ = _
    rw [hversions₂, hversions₁]
    rfl

/-- To read the versions of a package that is found is to learn the versions that are listed. -/
theorem readVersions_on_found (htree : x.layout = .tree) {j : Journal IndexMemo} {n : QualifiedName}
    (hunknown : j.memo.versions.get? n = none) (hfound : x.findsFrom t j.memo n = .ok true) :
    ∃ j', (x.readVersions n).on t j = ((x.listedVersions t n).map fun _ => (), j') ∧
      (∀ n', x.versionsFrom t j'.memo n' = x.versionsFrom t j.memo n') ∧
      j'.memo.metadata = j.memo.metadata ∧
      ∀ vs, x.listedVersions t n = .ok vs → j'.memo.versionsOf n = vs := by
  obtain ⟨j', hj', hcategories, hpackages, hmetadata, hversions⟩ :=
    readVersions_on_from (t := t) htree j n
  have hfinds (n' : QualifiedName) : x.findsFrom t j'.memo n' = x.findsFrom t j.memo n' := by
    unfold findsFrom categoriesFrom IndexMemo.knowsPackage IndexMemo.packagesOf
    rw [hcategories, hpackages]
  refine ⟨j', hj', fun n' => ?_, hmetadata, fun vs hlisted => ?_⟩
  · rw [versionsFrom_tree htree, versionsFrom_tree htree, hfinds, hversions]
    cases hlisted : x.listedVersions t n with
    | error e => rfl
    | ok vs =>
      simp only
      rw [Table.get?_insert]
      by_cases hn : n' = n
      · subst hn
        rw [if_pos rfl, hunknown, hfound]
        exact hlisted.symm
      · rw [if_neg hn]
  · rw [IndexMemo.versionsOf, hversions, hlisted, Table.get?_insert, if_pos rfl]
    rfl

theorem needVersions_on_tree (htree : x.layout = .tree) {j : Journal IndexMemo}
    (hm : Coherent x j.memo) (n : QualifiedName) :
    ∃ j', (x.needVersions n).on t j = ((x.versionsFrom t j.memo n).map fun _ => (), j') ∧
      SaysAs x t j.memo j'.memo ∧
      ∀ vs, x.versionsFrom t j.memo n = .ok vs → j'.memo.versionsOf n = vs := by
  have hcoherent : Coherent x ((x.needVersions n).on t j).2.memo :=
    Learned.coherent (Looked.learned (needVersions_looked j.memo n j .refl)) hm
  rw [needVersions_eq, htree] at hcoherent ⊢
  simp only at hcoherent ⊢
  rw [Scan.on_bind_of_ok (Scan.on_memo t j)] at hcoherent ⊢
  rw [versionsFrom_tree htree]
  cases hv : j.memo.versions.get? n with
  | some vs =>
    rw [Table.contains, hv]
    refine ⟨j, rfl, .refl hm, fun vs' hvs' => ?_⟩
    cases hvs'
    rw [IndexMemo.versionsOf, hv]
    rfl
  | none =>
    rw [Table.contains, hv] at hcoherent ⊢
    simp only [Option.isSome_none, Bool.false_eq_true, ↓reduceIte] at hcoherent ⊢
    obtain ⟨j₁, hj₁, hfinds, hversions, hmetadata⟩ := lookupPackage_on_tree (t := t) htree j n
    have hnone : j₁.memo.versionsOf n = [] := by
      rw [IndexMemo.versionsOf, hversions, hv]
      rfl
    have hsame : ∀ n', x.versionsFrom t j₁.memo n' = x.versionsFrom t j.memo n' := fun n' => by
      rw [versionsFrom_tree htree, versionsFrom_tree htree, hversions, hfinds]
    cases hfound : x.findsFrom t j.memo n with
    | error e =>
      rw [hfound] at hj₁
      rw [Scan.on_bind_of_error hj₁] at hcoherent ⊢
      exact ⟨j₁, rfl, .of_versions hcoherent hsame hmetadata, fun _ hvs => by cases hvs⟩
    | ok found =>
      rw [hfound] at hj₁
      rw [Scan.on_bind_of_ok hj₁] at hcoherent ⊢
      cases found with
      | false =>
        refine ⟨j₁, rfl, .of_versions hcoherent hsame hmetadata, fun vs hvs => ?_⟩
        cases hvs
        exact hnone
      | true =>
        obtain ⟨j₂, hj₂, hsame₂, hmetadata₂, hlisted⟩ := readVersions_on_found (t := t) htree
          (hversions ▸ hv) ((hfinds n).trans hfound)
        rw [if_pos rfl, hj₂] at hcoherent ⊢
        exact ⟨j₂, rfl, .of_versions hcoherent (fun n' => (hsame₂ n').trans (hsame n'))
          (hmetadata₂.trans hmetadata), hlisted⟩

/-! ### In an installed-package database -/

/-- A category that was filled is loaded; the other categories are as they were. -/
theorem Filled.get? {c : Category} {ps : List PackageName} (h : Filled x t c ps memo memo')
    {table table' : Table Category Bool} (htable : memo.categories = some table)
    (htable' : memo'.categories = some table') (c' : Category) :
    table'.get? c' = if c' = c then some true else table.get? c' := by
  have hloaded := h.isLoaded c'
  rw [Sound.isLoaded_iff htable, Sound.isLoaded_iff htable'] at hloaded
  split
  case isTrue heq => exact hloaded.2 (.inl heq)
  case isFalse hne =>
    have hkeys := h.keys
    rw [htable, htable', Option.map_some, Option.map_some, Option.some_inj] at hkeys
    have hcontains := Table.contains_eq_of_keys_eq hkeys c'
    rw [or_iff_right hne] at hloaded
    unfold Table.contains at hcontains
    cases hflag : table.get? c' with
    | none =>
      rw [hflag] at hcontains
      exact Option.isSome_eq_false_iff.1 hcontains |> Option.isNone_iff_eq_none.1
    | some loaded =>
      rw [hflag] at hcontains hloaded
      obtain ⟨loaded', hflag'⟩ := Option.isSome_iff_exists.1 hcontains
      rw [hflag', Option.some_inj, Option.some_inj] at hloaded
      rw [hflag', Bool.eq_iff_iff.2 hloaded]

/-- To fill a category is to learn the versions that are listed. -/
theorem Filled.saysAs {c : Category} {ps : List PackageName} (h : Filled x t c ps memo memo')
    (hinstalled : x.layout = .installed) (hm : Coherent x memo) : SaysAs x t memo memo' := by
  refine .of_versions ((Looks.packages h).coherent hm) (fun n => ?_) h.metadata
  obtain ⟨table, htable, hflag⟩ := Option.bind_eq_some_iff.1 h.unloaded
  obtain ⟨table', htable', -⟩ := Option.bind_eq_some_iff.1 ((h.isLoaded c).2 (.inl rfl))
  have hversions := h.installed hinstalled n
  rw [versionsFrom_installed hinstalled htable, versionsFrom_installed hinstalled htable',
    h.get? htable htable']
  by_cases hc : n.category = c
  · rw [if_pos hc] at hversions
    rw [if_pos hc, hc, hflag]
    exact (hversions (hm.nothing hinstalled n (hc ▸ h.not_isLoaded)).2).symm
  · rw [if_neg hc] at hversions
    rw [if_neg hc, hversions]

/-- A package of a category that is not loaded is looked for by filling the category. -/
theorem probePackage_on_installed (hinstalled : x.layout = .installed) {j : Journal IndexMemo}
    (hm : Coherent x j.memo) {n : QualifiedName}
    (hunloaded : j.memo.categories.bind (·.get? n.category) = some false) :
    ∃ r j', (x.probePackage n).on t j = (r, j') ∧
      (r.map fun _ => ()) = (x.listedVersions t n).map (fun _ => ()) ∧
      SaysAs x t j.memo j'.memo ∧
      ∀ vs, x.listedVersions t n = .ok vs → j'.memo.versionsOf n = vs := by
  obtain ⟨table, htable, hflag⟩ := Option.bind_eq_some_iff.1 hunloaded
  have hneed : (x.needPackages n.category).on t j = (x.loadPackages n.category).on t j := by
    rw [needPackages_eq, Scan.on_bind_of_ok (needCategories_of_known htable),
      Scan.on_bind_of_ok (Scan.on_memo t j), if_pos hunloaded]
  rw [probePackage, hinstalled]
  simp only
  rcases loadPackages_cases (x := x) (t := t) hunloaded with
    ⟨e, j', hj', hknow, hdirs⟩ | ⟨ps, j', hj', hfilled⟩
  · have hlisted : x.listedVersions t n = .error e := by
      rw [listedVersions, hinstalled, hdirs]
      rfl
    rw [Scan.on_bind_of_error (hneed.trans hj'), hlisted]
    exact ⟨_, j', rfl, rfl, .of_knowledge hm hknow, fun _ hvs => by cases hvs⟩
  · have hempty := (hm.nothing hinstalled n hfilled.not_isLoaded).2
    have hlisted := hfilled.installed hinstalled n
    rw [if_pos rfl] at hlisted
    rw [Scan.on_bind_of_ok (hneed.trans hj'), hlisted hempty]
    refine ⟨_, j', rfl, rfl, hfilled.saysAs hinstalled hm, fun vs hvs => ?_⟩
    cases hvs
    rfl

theorem needVersions_on_installed (hinstalled : x.layout = .installed) {j : Journal IndexMemo}
    (hm : Coherent x j.memo) (n : QualifiedName) :
    ∃ j', (x.needVersions n).on t j = ((x.versionsFrom t j.memo n).map fun _ => (), j') ∧
      SaysAs x t j.memo j'.memo ∧
      ∀ vs, x.versionsFrom t j.memo n = .ok vs → j'.memo.versionsOf n = vs := by
  obtain ⟨j₁, hj₁, hcategorized⟩ := needCategories_on_from (x := x) (t := t) j
  have hsame := hcategorized.saysAs hj₁ hm
  rw [needVersions_eq, hinstalled]
  simp only
  rw [Scan.on_discard, lookupPackage_eq, ← hsame.versions n]
  cases hc : x.categoriesFrom t j.memo with
  | error e =>
    rw [hc] at hj₁
    have herror : x.versionsFrom t j₁.memo n = .error e := by
      rw [versionsFrom, hinstalled, hcategorized.categoriesFrom, hc]
      rfl
    rw [Scan.on_bind_of_error hj₁, herror]
    exact ⟨j₁, rfl, hsame, fun _ hvs => by cases hvs⟩
  | ok table =>
    have htable : j₁.memo.categories = some table := by
      rw [hcategorized.categories, hc]
      rfl
    rw [hc] at hj₁
    rw [Scan.on_bind_of_ok hj₁, Scan.on_bind_of_ok (Scan.on_memo t j₁), htable, Option.bind_some,
      versionsFrom_installed hinstalled htable]
    have hnothing (hl : ¬ j₁.memo.isLoaded n.category) := hsame.coherent.nothing hinstalled n hl
    rw [Sound.isLoaded_iff htable] at hnothing
    cases hflag : table.get? n.category with
    | none =>
      refine ⟨j₁, rfl, hsame, fun vs hvs => ?_⟩
      cases hvs
      exact (hnothing (by rw [hflag]; nofun)).2
    | some loaded =>
      cases loaded with
      | true =>
        refine ⟨j₁, rfl, hsame, fun vs hvs => ?_⟩
        cases hvs
        rfl
      | false =>
        obtain ⟨hpackages, hversions⟩ := hnothing (by rw [hflag]; nofun)
        have hknows : j₁.memo.knowsPackage n = false := by
          rw [IndexMemo.knowsPackage, hpackages]
          rfl
        simp only [hknows, Bool.or_self, Bool.false_eq_true, ↓reduceIte]
        have hunloaded : j₁.memo.categories.bind (·.get? n.category) = some false := by
          rw [htable]
          exact hflag
        obtain ⟨r, j₂, hj₂, hr, hsame₂, hknown⟩ :=
          probePackage_on_installed (t := t) hinstalled hsame.coherent hunloaded
        rw [hj₂]
        exact ⟨j₂, congrArg (·, j₂) hr, hsame.trans hsame₂, hknown⟩

/-! ## Questions -/

/-- The versions that become known are those that the memo and the files tell of. -/
theorem needVersions_on_from {j : Journal IndexMemo} (hm : Coherent x j.memo) (n : QualifiedName) :
    ∃ j', (x.needVersions n).on t j = ((x.versionsFrom t j.memo n).map fun _ => (), j') ∧
      SaysAs x t j.memo j'.memo ∧
      ∀ vs, x.versionsFrom t j.memo n = .ok vs → j'.memo.versionsOf n = vs := by
  cases hlayout : x.layout with
  | tree => exact needVersions_on_tree hlayout hm n
  | installed => exact needVersions_on_installed hlayout hm n

theorem versions_yields_from (n : QualifiedName) :
    Yields (SaysAs x t start) (x.versions n) t (x.versionsFrom t start n) := by
  refine .of_on fun j hj => ?_
  obtain ⟨j', hj', hsame, hknown⟩ := needVersions_on_from (t := t) hj.coherent n
  rw [hj.versions n] at hj' hknown
  unfold versions
  cases hvs : x.versionsFrom t start n with
  | error e =>
    rw [hvs] at hj'
    exact ⟨j', Scan.on_bind_of_error hj' _, hj.trans hsame⟩
  | ok vs =>
    rw [hvs] at hj'
    rw [Scan.on_bind_of_ok hj', Scan.on_bind_of_ok (Scan.on_memo t j'), hknown vs hvs]
    exact ⟨j', rfl, hj.trans hsame⟩

theorem hasVersion_yields_from (n : QualifiedName) (v : Version) :
    Yields (SaysAs x t start) (x.hasVersion n v) t
      ((x.versionsFrom t start n).map fun vs => decide (v ∈ vs)) := by
  unfold hasVersion
  rw [bind_pure_comp]
  exact (versions_yields_from n).map _

/-- A record that is read is the one that the index goes on giving. -/
theorem SaysAs.insert (h : SaysAs x t start memo) {n : QualifiedName} {v : Version} {m : Metadata}
    (hm : x.metadataFrom t start n v = .ok m) :
    SaysAs x t start { memo with metadata := memo.metadata.insert (n, v) m } := by
  refine ⟨⟨h.coherent.known, h.coherent.sorted, h.coherent.nothing⟩, h.versions, fun n' v' => ?_⟩
  rw [← h.metadata n' v']
  unfold metadataFrom
  rw [Table.get?_insert]
  by_cases hkey : (n', v') = (n, v)
  · cases hkey
    rw [if_pos rfl]
    exact (hm.symm.trans (h.metadata n v).symm)
  · rw [if_neg hkey]
    rfl

theorem metadata_yields_from (n : QualifiedName) (v : Version) :
    Yields (SaysAs x t start) (x.metadata n v) t (x.metadataFrom t start n v) := by
  refine .of_on fun j hj => ?_
  have hexists : Yields (SaysAs x t start) (x.hasVersion n v) t _ := hasVersion_yields_from n v
  obtain ⟨j₁, hj₁, hsame₁⟩ := hexists.on_eq hj
  have hfrom := hj.metadata n v
  unfold metadata
  rw [Scan.on_bind_of_ok (Scan.on_memo t j)]
  rw [metadataFrom] at hfrom
  cases hnew : j.memo.metadata.get? (n, v) with
  | some m =>
    rw [hnew] at hfrom
    exact ⟨j, congrArg (·, j) hfrom, hj⟩
  | none =>
    rw [hnew] at hfrom
    simp only at hfrom ⊢
    rw [hj.versions n] at hfrom
    cases hvs : x.versionsFrom t start n with
    | error e =>
      rw [hvs] at hj₁ hfrom
      rw [Scan.on_bind_of_error hj₁]
      exact ⟨j₁, congrArg (·, j₁) hfrom, hsame₁⟩
    | ok vs =>
      rw [hvs] at hj₁ hfrom
      rw [Scan.on_bind_of_ok hj₁]
      by_cases hv : v ∈ vs
      · have hfrom : (x.generator.generate x.location n v : Scan IndexMemo Metadata).found t =
            x.metadataFrom t start n v := by
          rw [← hfrom]
          exact (if_pos hv).symm
        obtain ⟨j₂, hj₂, hknow⟩ := (reads_generate (t := t) x.generator x.location n v).on_eq j₁
        have hsame₂ := hsame₁.trans (.of_knowledge hsame₁.coherent hknow)
        rw [hfrom] at hj₂
        rw [if_pos (decide_eq_true hv)]
        cases hm : x.metadataFrom t start n v with
        | error e =>
          rw [hm] at hj₂
          exact ⟨j₂, Scan.on_bind_of_error hj₂ _, hsame₂⟩
        | ok m =>
          rw [hm] at hj₂
          exact ⟨_, Scan.on_bind_of_ok hj₂ _, hsame₂.insert hm⟩
      · rw [if_neg fun h => hv (of_decide_eq_true h)]
        refine ⟨j₁, congrArg (·, j₁) ?_, hsame₁⟩
        rw [← hfrom]
        exact (if_neg hv).symm

/-! ## Records of known versions -/

/-- What is known hangs together, and records are remembered of known versions only. -/
structure Grounded (x : Index) (memo : IndexMemo) : Prop extends Orderly x memo where
  recorded : ∀ n v m, memo.metadata.get? (n, v) = some m → v ∈ memo.versionsOf n

theorem grounded_empty : Grounded x {} := ⟨orderly_empty, nofun⟩

theorem Learned.grounded (h : Learned x t memo memo') (hm : Grounded x memo) :
    Grounded x memo' := by
  induction h with
  | refl => exact hm
  | @tail memo memo' _ hstep ih =>
    have hkept (n : QualifiedName) (v : Version) (hv : v ∈ memo.versionsOf n) :
        v ∈ memo'.versionsOf n := by
      rwa [(hstep.retains.knows_versions ih.coherent (List.ne_nil_of_mem hv)).1]
    refine ⟨Learned.orderly (.single hstep) ih.toOrderly, fun n v m hm => ?_⟩
    cases hstep with
    | looked h =>
      rw [h.metadata_eq] at hm
      exact hkept n v (ih.recorded n v m hm)
    | @record n' v' m' known unknown generated =>
      rw [Table.get?_insert] at hm
      split at hm
      case isTrue heq =>
        cases heq
        exact known
      case isFalse => exact ih.recorded n v m hm

/-- Known versions are told of without a look at the files. -/
theorem versionsFrom_of_known (hm : Coherent x memo) {n : QualifiedName}
    (hne : memo.versionsOf n ≠ []) : x.versionsFrom t memo n = .ok (memo.versionsOf n) := by
  obtain ⟨-, hknown⟩ := (Retains.refl memo).knows_versions hm hne
  cases hlayout : x.layout with
  | tree =>
    rw [hlayout] at hknown
    obtain ⟨vs, hvs⟩ := Option.isSome_iff_exists.1 hknown
    rw [versionsFrom_tree hlayout, IndexMemo.versionsOf, hvs]
    rfl
  | installed =>
    rw [hlayout] at hknown
    obtain ⟨table, htable, hflag⟩ := Option.bind_eq_some_iff.1 hknown
    rw [versionsFrom_installed hlayout htable, hflag]

/-- Versions are told of in order, and so each once. -/
theorem sorted_versionsFrom (hm : Orderly x memo) {n : QualifiedName} {vs : List Version}
    (h : x.versionsFrom t memo n = .ok vs) : Ascending.Sorted vs := by
  cases hlayout : x.layout with
  | tree =>
    rw [versionsFrom_tree hlayout] at h
    cases hknown : memo.versions.get? n with
    | some known =>
      have hsorted := hm.versions n
      rw [hknown] at h
      rw [IndexMemo.versionsOf, hknown] at hsorted
      cases h
      exact hsorted
    | none =>
      rw [hknown] at h
      obtain ⟨found, -, h⟩ := Scan.bind_eq_ok_iff.1 h
      cases found with
      | true => exact sorted_listedVersions h
      | false =>
        cases h
        exact Ascending.sorted_nil
  | installed =>
    unfold versionsFrom at h
    rw [hlayout] at h
    obtain ⟨table, -, h⟩ := Scan.bind_eq_ok_iff.1 h
    cases hflag : table.get? n.category with
    | none =>
      rw [hflag] at h
      cases h
      exact Ascending.sorted_nil
    | some loaded =>
      rw [hflag] at h
      cases loaded with
      | true =>
        cases h
        exact hm.versions n
      | false => exact sorted_listedVersions h

/-! ## What exists -/

section
variable {n : QualifiedName} {v : Version} {vs : List Version}

theorem metadataFrom_of_notMem (hm : Grounded x memo) (hvs : x.versionsFrom t memo n = .ok vs)
    (hv : v ∉ vs) :
    x.metadataFrom t memo n v = .error (.noSuchPackage n.text v.text x.repository) := by
  unfold metadataFrom
  cases hnew : memo.metadata.get? (n, v) with
  | some m =>
    have hknown := hm.recorded n v m hnew
    rw [versionsFrom_of_known hm.coherent (List.ne_nil_of_mem hknown)] at hvs
    cases hvs
    exact absurd hknown hv
  | none =>
    rw [hvs]
    exact if_neg hv

theorem mem_of_metadataFrom (hm : Grounded x memo) {m : Metadata}
    (h : x.metadataFrom t memo n v = .ok m) :
    ∃ vs, x.versionsFrom t memo n = .ok vs ∧ v ∈ vs := by
  cases hvs : x.versionsFrom t memo n with
  | ok vs =>
    refine ⟨vs, rfl, ?_⟩
    by_contra hv
    rw [metadataFrom_of_notMem hm hvs hv] at h
    cases h
  | error e =>
    unfold metadataFrom at h
    rw [hvs] at h
    cases hnew : memo.metadata.get? (n, v) with
    | none =>
      rw [hnew] at h
      cases h
    | some m' =>
      have hknown := hm.recorded n v m' hnew
      rw [versionsFrom_of_known hm.coherent (List.ne_nil_of_mem hknown)] at hvs
      cases hvs

theorem metadataFrom_of_mem (hvs : x.versionsFrom t memo n = .ok vs) (hv : v ∈ vs) :
    Existing (x.metadataFrom t memo n v) := by
  unfold metadataFrom
  cases memo.metadata.get? (n, v) with
  | some m => exact existing_ok m
  | none =>
    rw [hvs]
    show Existing (if v ∈ vs then _ else _)
    rw [if_pos hv]
    exact existing_generate x.generator x.location n v t

end

end PackageCatalog.Index
