import Mathlib.Logic.Relation
import PackageCatalog.Proofs.Index.History

/-!
# How an index learns

A question changes what an index knows in five ways only, and each of them is open only to an index
that has not learned the thing already (`Looks`).  Whatever the memo and whatever the file tree,
every question is a sequence of such steps:

    Learned x t memo ((x.reply q).run t memo).2.1                          (reply_learned)

What an index never unlearns follows from the steps alone.
-/

namespace PackageCatalog.Index

open IndexMemo (knowledge)
open Scan (Keeps Reads)

variable {x : Index} {t : FileTree} {memo memo' : IndexMemo}

/-! ## Steps -/

theorem known_of_knowledge (h : knowledge memo' = knowledge memo) :
    memo'.categories = memo.categories ∧ memo'.packages = memo.packages ∧
      memo'.versions = memo.versions ∧ memo'.metadata = memo.metadata :=
  have h := IndexMemo.ext_iff.1 h
  ⟨h.1, h.2.1, h.2.2.1, h.2.2.2.1⟩

/-- Memos that know the same differ in their diagnostics alone. -/
theorem eq_of_knowledge (h : knowledge memo' = knowledge memo) :
    memo' = { memo with diagnostics := memo'.diagnostics } := by
  obtain ⟨hcategories, hpackages, hversions, hmetadata⟩ := known_of_knowledge h
  exact IndexMemo.ext_iff.2 ⟨hcategories, hpackages, hversions, hmetadata, rfl⟩

/-- All packages of a category become known, in an installed-package database with their
versions. -/
structure Filled (x : Index) (t : FileTree) (c : Category) (ps : List PackageName)
    (memo memo' : IndexMemo) : Prop where
  unloaded : memo.categories.bind (·.get? c) = some false
  listed : x.listedPackages t c = .ok ps
  keys : memo'.categories.map Table.keys = memo.categories.map Table.keys
  isLoaded : ∀ c', memo'.isLoaded c' ↔ c' = c ∨ memo.isLoaded c'
  packages : Joined (.ok ps) c memo memo'
  tree : x.layout = .tree → memo'.versions = memo.versions
  installed : x.layout = .installed → ∀ n : QualifiedName,
    if n.category = c then memo.versionsOf n = [] → x.listedVersions t n = .ok (memo'.versionsOf n)
    else memo'.versionsOf n = memo.versionsOf n
  metadata : memo'.metadata = memo.metadata

theorem Filled.not_isLoaded {c : Category} {ps : List PackageName}
    (h : Filled x t c ps memo memo') : ¬ memo.isLoaded c := by
  unfold IndexMemo.isLoaded
  rw [h.unloaded]
  nofun

/-- One step of looking around in a file tree. -/
inductive Looks (x : Index) (t : FileTree) : IndexMemo → IndexMemo → Prop where
  /-- Nothing but diagnostics is new. -/
  | nothing {memo memo' : IndexMemo} (h : knowledge memo' = knowledge memo) : Looks x t memo memo'
  | categories {memo : IndexMemo} {found : Table Category Bool} (unknown : memo.categories = none)
      (listed : x.listedCategories t = .ok found) :
      Looks x t memo { memo with categories := some found }
  /-- A package of a tree, from its directory alone. -/
  | package {memo : IndexMemo} {n : QualifiedName} (tree : x.layout = .tree)
      (unloaded : memo.categories.bind (·.get? n.category) = some false)
      (present : t.isDirectory (x.packageDir n) = true) : Looks x t memo (memo.addPackage n)
  | packages {memo memo' : IndexMemo} {c : Category} {ps : List PackageName}
      (h : Filled x t c ps memo memo') : Looks x t memo memo'
  /-- All versions of a package of a tree. -/
  | versions {memo : IndexMemo} {n : QualifiedName} {vs : List Version} (tree : x.layout = .tree)
      (unknown : memo.versions.get? n = none) (listed : x.listedVersions t n = .ok vs) :
      Looks x t memo { memo with versions := memo.versions.insert n vs }

/-- The steps that do not depend on which packages are asked for. -/
inductive Surveys (x : Index) (t : FileTree) : IndexMemo → IndexMemo → Prop where
  | nothing {memo memo' : IndexMemo} (h : knowledge memo' = knowledge memo) :
      Surveys x t memo memo'
  | categories {memo : IndexMemo} {found : Table Category Bool} (unknown : memo.categories = none)
      (listed : x.listedCategories t = .ok found) :
      Surveys x t memo { memo with categories := some found }
  | packages {memo memo' : IndexMemo} {c : Category} {ps : List PackageName}
      (h : Filled x t c ps memo memo') : Surveys x t memo memo'

/-- What an index may have learned from a file tree by listing alone. -/
abbrev Surveyed (x : Index) (t : FileTree) : IndexMemo → IndexMemo → Prop :=
  Relation.ReflTransGen (Surveys x t)

/-- What an index may have learned from a file tree without reading records. -/
abbrev Looked (x : Index) (t : FileTree) : IndexMemo → IndexMemo → Prop :=
  Relation.ReflTransGen (Looks x t)

theorem Looks.metadata_eq (h : Looks x t memo memo') : memo'.metadata = memo.metadata := by
  cases h with
  | nothing h => exact (known_of_knowledge h).2.2.2
  | categories => rfl
  | package => rfl
  | packages h => exact h.metadata
  | versions => rfl

theorem Looked.metadata_eq (h : Looked x t memo memo') : memo'.metadata = memo.metadata := by
  induction h with
  | refl => rfl
  | tail _ hstep ih => exact hstep.metadata_eq.trans ih

theorem Surveys.looks (h : Surveys x t memo memo') : Looks x t memo memo' := by
  cases h with
  | nothing h => exact .nothing h
  | categories unknown listed => exact .categories unknown listed
  | packages h => exact .packages h

theorem Surveyed.looked (h : Surveyed x t memo memo') : Looked x t memo memo' :=
  h.lift id fun _ _ => Surveys.looks

theorem looked_of_surveyed {α : Type} {s : Scan IndexMemo α}
    (h : ∀ start, Keeps (Surveyed x t start) s t) (start : IndexMemo) :
    Keeps (Looked x t start) s t :=
  fun j hj => hj.trans (h j.memo j .refl).looked

/-! ## Categories and packages -/

theorem needCategories_surveyed (start : IndexMemo) :
    Keeps (Surveyed x t start) x.needCategories t := by
  intro j hj
  unfold needCategories
  rw [Scan.on_bind_of_ok (Scan.on_memo t j)]
  cases hc : j.memo.categories with
  | some table => exact hj
  | none =>
    obtain ⟨j', hj', hknow⟩ := (reads_scanCategories (x := x) (t := t)).on_eq j
    have hlooked := hj.tail (.nothing hknow)
    simp only [Option.isNone_none, ↓reduceIte]
    cases hfound : x.listedCategories t with
    | error e =>
      rw [hfound] at hj'
      rw [Scan.on_bind_of_error hj']
      exact hlooked
    | ok found =>
      rw [hfound] at hj'
      rw [Scan.on_bind_of_ok hj']
      exact hlooked.tail (.categories ((known_of_knowledge hknow).1.trans hc) hfound)

theorem Scanned.of_knowledge {c : Category} {start : IndexMemo} (h : Scanned x t c memo memo')
    (hknow : knowledge memo = knowledge start) : Scanned x t c start memo' := by
  obtain ⟨hcategories, hpackages, hversions, hmetadata⟩ := known_of_knowledge hknow
  have hversionsOf : ∀ n, memo.versionsOf n = start.versionsOf n := fun n => by
    unfold IndexMemo.versionsOf
    rw [hversions]
  refine ⟨h.categories.trans hcategories, h.packages.trans hpackages, h.metadata.trans hmetadata,
    fun ht => (h.tree ht).trans hversions, fun hi n => ?_⟩
  rw [← hversionsOf]
  exact h.installed hi n

theorem Scanned.filled {scanned : IndexMemo} {c : Category} {ps : List PackageName}
    (h : Scanned x t c memo scanned) (unloaded : memo.categories.bind (·.get? c) = some false)
    (listed : x.listedPackages t c = .ok ps) :
    Filled x t c ps memo ((ps.foldl (fun m p => m.addPackage ⟨c, p⟩) scanned).setLoaded c) := by
  obtain ⟨hpackages, hrest⟩ := IndexMemo.foldl_addPackage ps c scanned
  obtain ⟨hcategories, -, hversions, hmetadata, -⟩ := IndexMemo.ext_iff.1 hrest
  obtain ⟨table, htable, hflag⟩ := Option.bind_eq_some_iff.1 unloaded
  have hcategories : (ps.foldl (fun m p => m.addPackage ⟨c, p⟩) scanned).categories = some table :=
    hcategories.trans (h.categories.trans htable)
  have hpackagesOf : ∀ c', scanned.packagesOf c' = memo.packagesOf c' := fun c' => by
    unfold IndexMemo.packagesOf
    rw [h.packages]
  have hversionsOf : ∀ n, ((ps.foldl (fun m p => m.addPackage ⟨c, p⟩) scanned).setLoaded
      c).versionsOf n = scanned.versionsOf n := fun n => by
    unfold IndexMemo.versionsOf IndexMemo.setLoaded
    rw [show (ps.foldl (fun m p => m.addPackage ⟨c, p⟩) scanned).versions = _ from hversions]
  refine ⟨unloaded, listed, ?_, fun c' => ?_, fun c' => ?_, fun ht => ?_, fun hi n => ?_, ?_⟩
  · unfold IndexMemo.setLoaded
    rw [hcategories, htable, Option.map_some, Option.map_some, Option.map_some, Table.keys_insert,
      if_pos ((Table.contains_iff _ _).1 (by rw [Table.contains, hflag]; rfl))]
  · rw [IndexMemo.isLoaded_setLoaded_iff hcategories, IndexMemo.isLoaded, IndexMemo.isLoaded,
      hcategories, htable]
  · rw [← hpackagesOf]
    exact hpackages c'
  · exact hversions.trans (h.tree ht)
  · rw [hversionsOf]
    exact h.installed hi n
  · exact hmetadata.trans h.metadata

/-- Looking through a category fails and tells nothing, or its packages become known. -/
theorem loadPackages_cases {c : Category} {j : Journal IndexMemo}
    (hflag : j.memo.categories.bind (·.get? c) = some false) :
    (∃ e j', (x.loadPackages c).on t j = (.error e, j') ∧
      knowledge j'.memo = knowledge j.memo ∧ subdirectoriesIn t (x.categoryDir c) = .error e) ∨
    ∃ ps j', (x.loadPackages c).on t j = (.ok (), j') ∧ Filled x t c ps j.memo j'.memo := by
  obtain ⟨j₁, hj₁, hknow⟩ := (reads_subdirectories (t := t) (x.categoryDir c)).on_eq j
  unfold loadPackages
  cases hdirs : subdirectoriesIn t (x.categoryDir c) with
  | error e =>
    rw [hdirs] at hj₁
    exact .inl ⟨e, j₁, Scan.on_bind_of_error hj₁ _, hknow, rfl⟩
  | ok dirs =>
    rw [hdirs] at hj₁
    obtain ⟨ps, hps, -⟩ := listedPackages_ok (x := x) hdirs
    obtain ⟨j₂, hj₂, hscanned⟩ := scanPackages_on c hdirs hps (fun found =>
      Scan.modifyMemo fun memo =>
        (found.foldl (fun m p => m.addPackage ⟨c, p⟩) memo).setLoaded c) j₁
    have hscanned' : Scanned x t c j.memo j₂.memo := hscanned.of_knowledge hknow
    exact .inr ⟨ps, _, (Scan.on_bind_of_ok hj₁ _).trans hj₂, hscanned'.filled hflag hps⟩

theorem needCategories_looked (start : IndexMemo) :
    Keeps (Looked x t start) x.needCategories t :=
  looked_of_surveyed needCategories_surveyed start

theorem needPackages_surveyed (start : IndexMemo) (c : Category) :
    Keeps (Surveyed x t start) (x.needPackages c) t := by
  rw [needPackages_eq]
  refine (needCategories_surveyed start).bind fun _ j hj => ?_
  rw [Scan.on_bind_of_ok (Scan.on_memo t j)]
  split
  case isTrue hflag =>
    rcases loadPackages_cases (x := x) (t := t) hflag with ⟨e, j', hj', hknow, -⟩ | ⟨ps, j', hj', h⟩
    · rw [hj']
      exact hj.tail (.nothing hknow)
    · rw [hj']
      exact hj.tail (.packages h)
  case isFalse => exact hj

theorem needPackages_looked (start : IndexMemo) (c : Category) :
    Keeps (Looked x t start) (x.needPackages c) t :=
  looked_of_surveyed (fun start => needPackages_surveyed start c) start

theorem probePackage_looked {start : IndexMemo} {n : QualifiedName} {j : Journal IndexMemo}
    (hj : Looked x t start j.memo)
    (hflag : j.memo.categories.bind (·.get? n.category) = some false) :
    Looked x t start ((x.probePackage n).on t j).2.memo := by
  unfold probePackage
  cases hlayout : x.layout with
  | tree =>
    simp only
    rw [Scan.on_bind_of_ok (Scan.on_isDirectory (x.packageDir n) t j)]
    cases hd : t.isDirectory (x.packageDir n) with
    | true => exact hj.tail (.package hlayout hflag hd)
    | false => exact hj
  | installed =>
    exact ((needPackages_looked start n.category).bind fun _ =>
      Scan.keeps_memo.bind fun _ => Scan.keeps_pure _) j hj

theorem lookupPackage_looked (start : IndexMemo) (n : QualifiedName) :
    Keeps (Looked x t start) (x.lookupPackage n) t := by
  rw [lookupPackage_eq]
  refine (needCategories_looked start).bind fun _ j hj => ?_
  rw [Scan.on_bind_of_ok (Scan.on_memo t j)]
  split
  case h_1 => exact hj
  case h_2 loaded hloaded =>
    split
    case isTrue => exact hj
    case isFalse hnew =>
      refine probePackage_looked hj ?_
      rw [hloaded, (Bool.or_eq_false_iff.1 (Bool.eq_false_iff.2 hnew)).1]

/-! ## Versions -/

theorem needCategories_keeps_versions (versions : Table QualifiedName (List Version)) :
    Keeps (fun memo => memo.versions = versions) x.needCategories t := by
  refine Scan.keeps_memo.bind fun memo => ?_
  split
  case isTrue =>
    refine Keeps.bind (fun j hj => ?_) fun _ => Scan.keeps_modifyMemo fun _ h => h
    obtain ⟨j', hj', hknow⟩ := (reads_scanCategories (x := x) (t := t)).on_eq j
    rw [hj']
    exact (known_of_knowledge hknow).2.2.1.trans hj
  case isFalse => exact Scan.keeps_pure _

/-- In a tree, looking for a package is not looking into it. -/
theorem lookupPackage_keeps_versions (htree : x.layout = .tree) (n : QualifiedName)
    (versions : Table QualifiedName (List Version)) :
    Keeps (fun memo => memo.versions = versions) (x.lookupPackage n) t := by
  rw [lookupPackage_eq, probePackage, htree]
  refine (needCategories_keeps_versions versions).bind fun _ => Scan.keeps_memo.bind fun memo => ?_
  split
  case h_1 => exact Scan.keeps_pure _
  case h_2 =>
    split
    case isTrue => exact Scan.keeps_pure _
    case isFalse =>
      refine Keeps.bind (fun _ hj => hj) fun present => ?_
      cases present with
      | true => exact Keeps.bind (fun _ hj => hj) fun _ => Scan.keeps_pure _
      | false => exact Scan.keeps_pure _

theorem readVersions_looked {start : IndexMemo} {n : QualifiedName} {j : Journal IndexMemo}
    (htree : x.layout = .tree) (hj : Looked x t start j.memo)
    (hnew : j.memo.versions.get? n = none) :
    Looked x t start ((x.readVersions n).on t j).2.memo := by
  obtain ⟨j₁, hj₁, hknow₁⟩ := (reads_files (t := t) (x.packageDir n)).on_eq j
  have hlooked₁ := hj.tail (.nothing hknow₁)
  unfold readVersions
  cases hentries : filesIn t (x.packageDir n) with
  | error e =>
    rw [hentries] at hj₁
    rw [Scan.on_bind_of_error hj₁]
    exact hlooked₁
  | ok entries =>
    rw [hentries] at hj₁
    obtain ⟨j₂, hj₂, hknow₂⟩ := (Scan.Reads.foldlM (t := t) entries
      (fun found entry _ => reads_addEntryFile (x := x) n.package found entry) []).on_eq j₁
    rw [Scan.foldlM_ok] at hj₂
    have hversions : j₂.memo.versions = j.memo.versions :=
      (known_of_knowledge hknow₂).2.2.1.trans (known_of_knowledge hknow₁).2.2.1
    rw [Scan.on_bind_of_ok hj₁, Scan.on_bind_of_ok hj₂, Scan.on_modifyMemo]
    refine (hlooked₁.tail (.nothing hknow₂)).tail (.versions htree ?_ ?_)
    · rw [hversions, hnew]
    · rw [listedVersions, htree, hentries]
      rfl

theorem needVersions_looked (start : IndexMemo) (n : QualifiedName) :
    Keeps (Looked x t start) (x.needVersions n) t := by
  rw [needVersions_eq]
  cases hlayout : x.layout with
  | installed =>
    intro j hj
    rw [Scan.on_discard]
    exact lookupPackage_looked start n j hj
  | tree =>
    intro j hj
    simp only
    rw [Scan.on_bind_of_ok (Scan.on_memo t j)]
    split
    case isTrue => exact hj
    case isFalse hnew =>
      have hnone : j.memo.versions.get? n = none := by
        simpa [Table.contains] using hnew
      have hlooked := lookupPackage_looked start n j hj
      have hversions := lookupPackage_keeps_versions (t := t) hlayout n j.memo.versions j rfl
      rw [Scan.on_bind]
      cases hfound : ((x.lookupPackage n).on t j).1 with
      | error e => exact hlooked
      | ok present =>
        cases present with
        | true => exact readVersions_looked hlayout hlooked (by rw [hversions, hnone])
        | false => exact hlooked

theorem hasVersion_looked (start : IndexMemo) (n : QualifiedName) (v : Version) :
    Keeps (Looked x t start) (x.hasVersion n v) t :=
  ((needVersions_looked start n).bind fun _ => Scan.keeps_memo.bind fun _ =>
    Scan.keeps_pure _).bind fun _ => Scan.keeps_pure _

theorem hasVersion_true {j j' : Journal IndexMemo} {n : QualifiedName} {v : Version}
    (h : (x.hasVersion n v).on t j = (.ok true, j')) : v ∈ j'.memo.versionsOf n := by
  obtain ⟨vs, j₁, hversions, h⟩ := Scan.on_bind_eq_ok h
  obtain ⟨_, j₂, -, hversions⟩ := Scan.on_bind_eq_ok hversions
  cases hversions
  simp only [Scan.on_pure, Prod.mk.injEq, Except.ok.injEq, decide_eq_true_eq] at h
  rw [← h.2]
  exact h.1

/-! ## Records -/

/-- One step of learning: looking around, or reading a record. -/
inductive Learns (x : Index) (t : FileTree) : IndexMemo → IndexMemo → Prop where
  | looked {memo memo' : IndexMemo} (h : Looks x t memo memo') : Learns x t memo memo'
  /-- The record of a version that is known. -/
  | record {memo : IndexMemo} {n : QualifiedName} {v : Version} {m : Metadata}
      (known : v ∈ memo.versionsOf n) (unknown : memo.metadata.get? (n, v) = none)
      (generated :
        (x.generator.generate x.location n v : Scan IndexMemo Metadata).found t = .ok m) :
      Learns x t memo { memo with metadata := memo.metadata.insert (n, v) m }

/-- What an index may have learned from a file tree. -/
abbrev Learned (x : Index) (t : FileTree) : IndexMemo → IndexMemo → Prop :=
  Relation.ReflTransGen (Learns x t)

theorem Looked.learned (h : Looked x t memo memo') : Learned x t memo memo' :=
  h.lift id fun _ _ => .looked

theorem learned_of_looked {α : Type} {s : Scan IndexMemo α}
    (h : ∀ start, Keeps (Looked x t start) s t) (start : IndexMemo) :
    Keeps (Learned x t start) s t :=
  fun j hj => hj.trans (h j.memo j .refl).learned

theorem metadata_learned (start : IndexMemo) (n : QualifiedName) (v : Version) :
    Keeps (Learned x t start) (x.metadata n v) t := by
  intro j hj
  unfold metadata
  rw [Scan.on_bind_of_ok (Scan.on_memo t j)]
  cases hnew : j.memo.metadata.get? (n, v) with
  | some m => exact hj
  | none =>
    have hlooked := hasVersion_looked (x := x) (t := t) j.memo n v j .refl
    have hmetadata := hlooked.metadata_eq
    have hlearned := hj.trans hlooked.learned
    simp only
    rw [Scan.on_bind]
    cases hfound : ((x.hasVersion n v).on t j).1 with
    | error e => exact hlearned
    | ok present =>
      cases present with
      | false => exact hlearned
      | true =>
        obtain ⟨j₂, hj₂, hknow₂⟩ :=
          (reads_generate (t := t) x.generator x.location n v).on_eq ((x.hasVersion n v).on t j).2
        have hlearned₂ := hlearned.tail (.looked (.nothing hknow₂))
        obtain ⟨-, -, hversions₂, hmetadata₂⟩ := known_of_knowledge hknow₂
        have hnew₂ : j₂.memo.metadata.get? (n, v) = none := by rw [hmetadata₂, hmetadata, hnew]
        have hknown₂ : v ∈ j₂.memo.versionsOf n := by
          rw [IndexMemo.versionsOf, hversions₂]
          exact hasVersion_true (Prod.ext hfound rfl)
        simp only [↓reduceIte]
        cases hm : (x.generator.generate x.location n v : Scan IndexMemo Metadata).found t with
        | error e =>
          rw [hm] at hj₂
          rw [Scan.on_bind_of_error hj₂]
          exact hlearned₂
        | ok m =>
          rw [hm] at hj₂
          rw [Scan.on_bind_of_ok hj₂]
          exact hlearned₂.tail (.record hknown₂ hnew₂ hm)

/-! ## Questions -/

theorem categories_surveyed (start : IndexMemo) : Keeps (Surveyed x t start) x.categories t :=
  (needCategories_surveyed start).bind fun _ => Scan.keeps_memo.bind fun _ => Scan.keeps_pure _

theorem packages_surveyed (start : IndexMemo) (c : Category) :
    Keeps (Surveyed x t start) (x.packages c) t :=
  (needPackages_surveyed start c).bind fun _ => Scan.keeps_memo.bind fun _ => Scan.keeps_pure _

/-- To list all packages is to survey. -/
theorem allPackages_surveyed (start : IndexMemo) : Keeps (Surveyed x t start) x.allPackages t :=
  (categories_surveyed start).bind fun cs => (Keeps.mapM cs (packages_surveyed start)).bind fun _ =>
    Scan.keeps_pure _

theorem learned_of_surveyed {α : Type} {s : Scan IndexMemo α}
    (h : ∀ start, Keeps (Surveyed x t start) s t) (start : IndexMemo) :
    Keeps (Learned x t start) s t :=
  learned_of_looked (looked_of_surveyed h) start

theorem categories_learned (start : IndexMemo) : Keeps (Learned x t start) x.categories t :=
  learned_of_surveyed categories_surveyed start

theorem packages_learned (start : IndexMemo) (c : Category) :
    Keeps (Learned x t start) (x.packages c) t :=
  learned_of_surveyed (fun start => packages_surveyed start c) start

/-- Whatever an index is asked, it learns step by step. -/
theorem reply_learned {α : Type} (start : IndexMemo) (q : Query α) :
    Keeps (Learned x t start) (x.reply q) t := by
  cases q with
  | ask q =>
    cases q with
    | hasCategory c =>
      exact (learned_of_looked needCategories_looked start).bind fun _ =>
        Scan.keeps_memo.bind fun _ => Scan.keeps_pure _
    | categories => exact categories_learned start
    | packages c => exact packages_learned start c
    | hasPackage n => exact learned_of_looked (fun start => lookupPackage_looked start n) start
    | versions n =>
      exact (learned_of_looked (fun start => needVersions_looked start n) start).bind fun _ =>
        Scan.keeps_memo.bind fun _ => Scan.keeps_pure _
    | hasVersion n v => exact learned_of_looked (fun start => hasVersion_looked start n v) start
    | metadata n v => exact metadata_learned start n v
    | containing p =>
      exact (categories_learned start).bind fun cs => .filterM cs fun c =>
        learned_of_looked (fun start => lookupPackage_looked start ⟨c, p⟩) start
  | allPackages => exact learned_of_surveyed allPackages_surveyed start

end PackageCatalog.Index
