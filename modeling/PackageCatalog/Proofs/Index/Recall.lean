import PackageCatalog.Proofs.Index.Enumeration
import PackageCatalog.Proofs.Index.Agreement
import PackageCatalog.Proofs.Version.Transitive

/-!
# What an index recalls

An index that lists all packages takes from its memo what it knows and from the files the rest, so
the list is of the packages that it *recalls*, which need not be those that are there:

    (x.allPackages).on t j = (.ok ns, j')  →  n ∈ ns ↔ Recalls x t j.memo n         (mem_list_iff)

A new index recalls what is there (`recalls_empty_iff`).
-/

namespace PackageCatalog.Index

open IndexMemo (knowledge)

variable {x : Index} {t : FileTree} {start memo memo' : IndexMemo}

instance (memo : IndexMemo) (c : Category) : Decidable (memo.isLoaded c) :=
  inferInstanceAs (Decidable (_ = some true))

/-- A category that is remembered or, if no categories are, is there. -/
def RecallsCategory (x : Index) (t : FileTree) (memo : IndexMemo) (c : Category) : Prop :=
  match memo.categories with
  | some table => table.contains c = true
  | none => x.isCategory t c = .ok true

/-- A package that is remembered or, if not all packages of its category are, is listed there. -/
def Recalls (x : Index) (t : FileTree) (memo : IndexMemo) (n : QualifiedName) : Prop :=
  x.RecallsCategory t memo n.category ∧ (n.package ∈ memo.packagesOf n.category ∨
    ¬ memo.isLoaded n.category ∧
      ∃ ps, x.listedPackages t n.category = .ok ps ∧ n.package ∈ ps)

/-- The versions that are remembered with their category or else are there. -/
def recalledVersions (x : Index) (t : FileTree) (memo : IndexMemo) (n : QualifiedName) :
    List Version :=
  if memo.isLoaded n.category then memo.versionsOf n
  else (x.listedVersions t n).toOption.getD []

/-- A package that a new index lists in its category. -/
def Lists (x : Index) (t : FileTree) (n : QualifiedName) : Prop :=
  ∃ ns, ((x.packages n.category).run t {}).1 = .ok ns ∧ n ∈ ns

theorem recalls_empty_iff {n : QualifiedName} : Recalls x t {} n ↔ x.Lists t n := by
  have hempty : ∀ c, ¬ IndexMemo.isLoaded {} c := fun c => Sound.not_isLoaded rfl c
  unfold Recalls Lists
  rw [packages_fresh]
  constructor
  · rintro ⟨hc, hp | ⟨-, ps, hps, hp⟩⟩
    · cases hp
    · have hpackages : x.packagesIn t n.category = .ok ps := by
        unfold packagesIn
        rw [show x.isCategory t n.category = .ok true from hc]
        exact hps
      refine ⟨ps.map fun p => ⟨n.category, p⟩, ?_, List.mem_map.2 ⟨n.package, hp, rfl⟩⟩
      rw [packageNamesIn, hpackages]
      rfl
  · rintro ⟨ns, hns, hn⟩
    obtain ⟨ps, hps, hp⟩ := (mem_packageNamesIn_iff hns).1 hn
    have hc := isCategory_of_mem_packagesIn hps hp
    refine ⟨hc, .inr ⟨hempty _, ps, ?_, hp⟩⟩
    rwa [packagesIn, hc] at hps

/-! ## Surveys -/

/-- What a survey has added to what was known at the start. -/
structure Gathered (x : Index) (t : FileTree) (start memo : IndexMemo) : Prop where
  unknown : memo.categories = none → start.categories = none
  category : ∀ table, memo.categories = some table → ∀ c,
    table.contains c = true ↔ x.RecallsCategory t start c
  loaded : ∀ c, start.isLoaded c → memo.isLoaded c
  packages : ∀ c p, p ∈ memo.packagesOf c ↔ p ∈ start.packagesOf c ∨
    memo.isLoaded c ∧ ¬ start.isLoaded c ∧ ∃ ps, x.listedPackages t c = .ok ps ∧ p ∈ ps
  metadata : memo.metadata = start.metadata

theorem Gathered.refl (start : IndexMemo) : Gathered x t start start where
  unknown h := h
  category table h c := by rw [RecallsCategory, h]
  loaded _ h := h
  packages c p := ⟨.inl, fun h => h.elim id fun h => absurd h.1 h.2.1⟩
  metadata := rfl

theorem Gathered.of_knowledge (h : Gathered x t start memo)
    (hknow : knowledge memo' = knowledge memo) : Gathered x t start memo' := by
  rw [eq_of_knowledge hknow]
  exact ⟨h.unknown, h.category, h.loaded, h.packages, h.metadata⟩

/-- Categories become known with no packages. -/
theorem Gathered.setCategories (h : Gathered x t start memo) (unknown : memo.categories = none)
    {found : Table Category Bool} (listed : x.listedCategories t = .ok found) :
    Gathered x t start { memo with categories := some found } := by
  have hstart := h.unknown unknown
  have hnone : ∀ c, ¬ memo.isLoaded c := Sound.not_isLoaded unknown
  have hfound : ∀ c, ¬ IndexMemo.isLoaded { memo with categories := some found } c :=
    listedCategories_get?_ne listed
  refine ⟨nofun, fun table htable c => ?_, fun c hc => absurd (h.loaded c hc) (hnone c),
    fun c p => ?_, h.metadata⟩
  · cases htable
    rw [RecallsCategory, hstart, isCategory, listed]
    show found.contains c = true ↔ (Except.ok (found.contains c) : Except Error Bool) = .ok true
    rw [Except.ok.injEq]
  · have hold := h.packages c p
    rw [or_iff_left fun h => hnone c h.1] at hold
    rw [or_iff_left fun h => hfound c h.1]
    exact hold

/-- A category that was not loaded at the start gets the packages that are listed in it. -/
theorem Gathered.fill (h : Gathered x t start memo) {c : Category} {ps : List PackageName}
    (hfilled : Filled x t c ps memo memo') : Gathered x t start memo' := by
  obtain ⟨table, htable, -⟩ := Option.bind_eq_some_iff.1 hfilled.unloaded
  have hkeys := hfilled.keys
  rw [htable, Option.map_some] at hkeys
  obtain ⟨table', htable', hkeys⟩ := Option.map_eq_some_iff.1 hkeys
  refine ⟨fun hnone => ?_, fun table'' htable'' c' => ?_,
    fun c' hc' => (hfilled.isLoaded c').2 (.inr (h.loaded c' hc')), fun c' p => ?_,
    hfilled.metadata.trans h.metadata⟩
  · rw [htable'] at hnone
    cases hnone
  · obtain rfl := Option.some.inj (htable'.symm.trans htable'')
    rw [Table.contains_eq_of_keys_eq hkeys]
    exact h.category table htable c'
  · rw [hfilled.packages c', hfilled.isLoaded c']
    have hold := h.packages c' p
    split
    case isFalse hne =>
      rw [or_iff_right hne]
      exact hold
    case isTrue heq =>
      subst heq
      rw [or_iff_left fun h => hfilled.not_isLoaded h.1] at hold
      rw [Ascending.mem_foldl_insert, hold]
      have hstart : ¬ start.isLoaded c' := fun hs => hfilled.not_isLoaded (h.loaded c' hs)
      constructor
      · rintro (hp | hp)
        · exact .inr ⟨.inl rfl, hstart, ps, hfilled.listed, hp⟩
        · exact .inl hp
      · rintro (hp | ⟨-, -, ps', hps', hp⟩)
        · exact .inr hp
        · obtain rfl := Except.ok.inj (hfilled.listed.symm.trans hps')
          exact .inl hp

theorem Surveys.gathered (hstep : Surveys x t memo memo') (h : Gathered x t start memo) :
    Gathered x t start memo' := by
  cases hstep with
  | nothing hknow => exact h.of_knowledge hknow
  | categories unknown listed => exact h.setCategories unknown listed
  | packages hfilled => exact h.fill hfilled

theorem Surveyed.gathered (h : Surveyed x t start memo) : Gathered x t start memo := by
  induction h with
  | refl => exact .refl start
  | tail _ hstep ih => exact hstep.gathered ih

theorem surveyed_of_list {j j' : Journal IndexMemo} {ns : List QualifiedName}
    (h : x.allPackages.on t j = (.ok ns, j')) : Surveyed x t j.memo j'.memo := by
  have hsurveyed := allPackages_surveyed (x := x) (t := t) j.memo j .refl
  rwa [h] at hsurveyed

theorem Gathered.mem_catalogue_iff (h : Gathered x t start memo) (hwhole : Whole memo)
    {n : QualifiedName} : n ∈ memo.catalogue ↔ Recalls x t start n := by
  obtain ⟨table, htable⟩ := hwhole.known
  have hcategory : memo.hasCategory n.category = true ↔ x.RecallsCategory t start n.category := by
    rw [← h.category table htable, IndexMemo.hasCategory, htable, Option.any_some]
  rw [Index.mem_catalogue_iff, h.packages, Recalls]
  constructor
  · rintro ⟨hc, hp | ⟨-, hp⟩⟩
    · exact ⟨hcategory.1 hc, .inl hp⟩
    · exact ⟨hcategory.1 hc, .inr hp⟩
  · rintro ⟨hc, hp | hp⟩
    · exact ⟨hcategory.2 hc, .inl hp⟩
    · exact ⟨hcategory.2 hc, .inr ⟨hwhole.loaded _ (hcategory.2 hc), hp⟩⟩

/-- A full list is of the packages that the index recalls. -/
theorem mem_list_iff {j j' : Journal IndexMemo} {ns : List QualifiedName}
    (h : x.allPackages.on t j = (.ok ns, j')) {n : QualifiedName} :
    n ∈ ns ↔ Recalls x t j.memo n := by
  obtain ⟨hwhole, rfl, -⟩ := allPackages_ok h
  exact (surveyed_of_list h).gathered.mem_catalogue_iff hwhole

/-! ## Known versions -/

/-- What is known hangs together, and versions are kept in order. -/
structure Orderly (x : Index) (memo : IndexMemo) : Prop where
  coherent : Coherent x memo
  versions : ∀ n, Ascending.Sorted (memo.versionsOf n)

theorem orderly_empty : Orderly x {} := ⟨coherent_empty, fun _ => Ascending.sorted_nil⟩

theorem sorted_withEntryFile {p : PackageName} {vs : List Version} (h : Ascending.Sorted vs)
    (entry : String × String) : Ascending.Sorted (x.withEntryFile p vs entry) := by
  unfold withEntryFile
  repeat' split
  · exact h
  · exact h
  · exact Ascending.sorted_insert h
  · exact h

theorem sorted_listedVersions {n : QualifiedName} {vs : List Version}
    (h : x.listedVersions t n = .ok vs) : Ascending.Sorted vs := by
  unfold listedVersions at h
  cases hlayout : x.layout with
  | tree =>
    rw [hlayout] at h
    obtain ⟨entries, -, rfl⟩ := Scan.map_eq_ok_iff.1 h
    exact List.foldlRecOn entries _ Ascending.sorted_nil fun vs hvs entry _ =>
      sorted_withEntryFile hvs entry
  | installed =>
    rw [hlayout] at h
    obtain ⟨dirs, -, rfl⟩ := Scan.map_eq_ok_iff.1 h
    exact Ascending.sorted_ofList _

theorem Looks.orderly (h : Looks x t memo memo') (hm : Orderly x memo) : Orderly x memo' := by
  refine ⟨h.coherent hm.coherent, fun n => ?_⟩
  have hsame (hversions : memo'.versions = memo.versions) :
      Ascending.Sorted (memo'.versionsOf n) := by
    rw [IndexMemo.versionsOf, hversions]
    exact hm.versions n
  cases h with
  | nothing hknow => exact hsame (known_of_knowledge hknow).2.2.1
  | categories => exact hm.versions n
  | package => exact hm.versions n
  | @packages _ c ps hfilled =>
    cases hlayout : x.layout with
    | tree => exact hsame (hfilled.tree hlayout)
    | installed =>
      have hversions := hfilled.installed hlayout n
      split at hversions
      case isTrue heq =>
        have hnothing := hm.coherent.nothing hlayout n (heq ▸ hfilled.not_isLoaded)
        exact sorted_listedVersions (hversions hnothing.2)
      case isFalse =>
        rw [hversions]
        exact hm.versions n
  | @versions n' vs tree unknown listed =>
    unfold IndexMemo.versionsOf
    rw [Table.get?_insert]
    split
    case isTrue => exact sorted_listedVersions listed
    case isFalse => exact hm.versions n

theorem Learned.orderly (h : Learned x t memo memo') (hm : Orderly x memo) : Orderly x memo' := by
  induction h with
  | refl => exact hm
  | tail _ hstep ih =>
    cases hstep with
    | looked h => exact h.orderly ih
    | record =>
      exact ⟨⟨ih.coherent.known, ih.coherent.sorted, ih.coherent.nothing⟩, ih.versions⟩

/-! ## Versions in an installed-package database -/

/-- Versions are known with their category: since the start, or as they are listed. -/
theorem Surveyed.versions (hinstalled : x.layout = .installed) (h : Surveyed x t start memo)
    (hstart : Coherent x start) (n : QualifiedName) (hloaded : memo.isLoaded n.category) :
    memo.versionsOf n = x.recalledVersions t start n := by
  unfold recalledVersions
  induction h with
  | refl => rw [if_pos hloaded]
  | @tail memo memo' hbefore hstep ih =>
    have hcoherent := Learned.coherent (Looked.learned (Surveyed.looked hbefore)) hstart
    cases hstep with
    | nothing hknow =>
      obtain ⟨hcategories, -, hversions, -⟩ := known_of_knowledge hknow
      unfold IndexMemo.isLoaded IndexMemo.versionsOf at *
      rw [hversions]
      rw [hcategories] at hloaded
      exact ih hloaded
    | categories unknown listed => exact absurd hloaded (listedCategories_get?_ne listed _)
    | @packages _ c ps hfilled =>
      have hversions := hfilled.installed hinstalled n
      by_cases hold : memo.isLoaded n.category
      · have hne : n.category ≠ c := fun heq => hfilled.not_isLoaded (heq ▸ hold)
        rw [if_neg hne] at hversions
        rw [hversions, ih hold]
      · have heq : n.category = c := ((hfilled.isLoaded _).1 hloaded).resolve_right hold
        rw [if_pos heq] at hversions
        have hstart' : ¬ start.isLoaded n.category := fun hs =>
          hold ((Surveyed.gathered hbefore).loaded _ hs)
        rw [if_neg hstart', hversions (hcoherent.nothing hinstalled n hold).2]
        rfl

end PackageCatalog.Index
