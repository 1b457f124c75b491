import PackageCatalog.Proofs.Index.Sticky

/-!
# What a full list leaves known

Once all packages were listed, whatever the index remembered before, it knows the packages of every
category, and the list is what it knows:

    (x.allPackages).on t j = (.ok ns, j')
      → Whole j'.memo ∧ ns = j'.memo.catalogue                                  (allPackages_ok)

From then on a look at the files is taken only for records (`metadata_yields_recordFrom`).
-/

namespace PackageCatalog

/-- The known packages of the known categories. -/
def IndexMemo.catalogue (memo : IndexMemo) : List QualifiedName :=
  Ascending.ofList (memo.categoryNames.map fun c =>
    (memo.packagesOf c).map fun p => (⟨c, p⟩ : QualifiedName)).flatten

namespace Index

open IndexMemo (knowledge)
open Scan (Yields)

variable {x : Index} {t : FileTree} {memo memo' : IndexMemo}

/-! ## Listing everything -/

theorem mem_categoryNames_iff {c : Category} :
    c ∈ memo.categoryNames ↔ memo.hasCategory c = true := by
  unfold IndexMemo.categoryNames IndexMemo.hasCategory
  rw [Ascending.mem_ofList]
  cases memo.categories with
  | none => simp
  | some table => exact (Table.contains_iff table c).symm

theorem mem_catalogue_iff {n : QualifiedName} : n ∈ memo.catalogue ↔
    memo.hasCategory n.category = true ∧ n.package ∈ memo.packagesOf n.category := by
  unfold IndexMemo.catalogue
  rw [Ascending.mem_ofList, List.mem_flatten]
  simp only [List.mem_map, mem_categoryNames_iff]
  constructor
  · rintro ⟨-, ⟨c, hc, rfl⟩, hn⟩
    obtain ⟨p, hp, rfl⟩ := List.mem_map.1 hn
    exact ⟨hc, hp⟩
  · rintro ⟨hc, hp⟩
    exact ⟨_, ⟨n.category, hc, rfl⟩, List.mem_map.2 ⟨n.package, hp, rfl⟩⟩

theorem Enumerated.isLoaded {c : Category} (h : Enumerated memo c)
    (hc : memo.hasCategory c = true) : memo.isLoaded c := by
  obtain ⟨table, htable, hflag⟩ := h
  rw [IndexMemo.hasCategory, htable, Option.any_some, Table.contains] at hc
  obtain ⟨loaded, hloaded⟩ := Option.isSome_iff_exists.1 hc
  rw [Sound.isLoaded_iff htable, hloaded]
  rw [hloaded] at hflag
  cases loaded with
  | true => rfl
  | false => exact absurd rfl hflag

theorem Retains.hasCategory (h : Retains x memo memo') {c : Category}
    (hc : memo.hasCategory c = true) : memo'.hasCategory c = true := by
  obtain ⟨table, htable, -⟩ := (Option.any_eq_true _ _).1 hc
  have hkeys : memo'.categories.map Table.keys = memo.categories.map Table.keys := by
    rw [h.keys table htable, htable]
    rfl
  rw [hasCategory_of_keys hkeys, hc]

/-- The packages of known categories, listed one category after the other. -/
theorem mapM_packages (cs : List Category) {j j' : Journal IndexMemo}
    {lists : List (List QualifiedName)} (hcs : ∀ c ∈ cs, j.memo.hasCategory c = true)
    (h : (cs.mapM x.packages).on t j = (.ok lists, j')) :
    Retains x j.memo j'.memo ∧ (∀ c ∈ cs, j'.memo.isLoaded c) ∧
      lists = cs.map fun c => (j'.memo.packagesOf c).map fun p => (⟨c, p⟩ : QualifiedName) := by
  induction cs generalizing j lists with
  | nil =>
    cases h
    exact ⟨.refl _, nofun, rfl⟩
  | cons c cs ih =>
    rw [List.mapM_cons] at h
    obtain ⟨ns, j₁, hfirst, h⟩ := Scan.on_bind_eq_ok h
    obtain ⟨rest, j₂, hrest, h⟩ := Scan.on_bind_eq_ok h
    cases h
    obtain ⟨henumerated, rfl⟩ := packages_ok hfirst
    have hstep : Retains x j.memo j₁.memo := by
      have := (packages_learned (x := x) (t := t) j.memo c j .refl).retains
      rwa [hfirst] at this
    obtain ⟨hretains, hloaded, rfl⟩ := ih (fun c' hc' =>
      hstep.hasCategory (hcs c' (List.mem_cons_of_mem c hc'))) hrest
    have hc := henumerated.isLoaded (hstep.hasCategory (hcs c List.mem_cons_self))
    obtain ⟨hc', hpackages⟩ := hretains.loaded c hc
    exact ⟨hstep.trans hretains, List.forall_mem_cons.2 ⟨hc', hloaded⟩, by
      rw [List.map_cons, hpackages]⟩

/-- The categories are known, and the packages of each. -/
structure Whole (memo : IndexMemo) : Prop where
  known : ∃ table, memo.categories = some table
  loaded : ∀ c, memo.hasCategory c = true → memo.isLoaded c

theorem Whole.enumerated (h : Whole memo) (c : Category) : Enumerated memo c := by
  obtain ⟨table, htable⟩ := h.known
  refine ⟨table, htable, fun hfalse => ?_⟩
  have hc := h.loaded c (hasCategory_of_unloaded (by rw [htable, Option.bind_some, hfalse]))
  rw [Sound.isLoaded_iff htable, hfalse] at hc
  cases hc

/-- A full list is of what is known then, and leaves nothing to be listed. -/
theorem allPackages_ok {j j' : Journal IndexMemo} {ns : List QualifiedName}
    (h : x.allPackages.on t j = (.ok ns, j')) :
    Whole j'.memo ∧ ns = j'.memo.catalogue ∧ Retains x j.memo j'.memo := by
  obtain ⟨cs, j₁, hcategories, h⟩ := Scan.on_bind_eq_ok h
  obtain ⟨lists, j₂, hlists, h⟩ := Scan.on_bind_eq_ok h
  cases h
  obtain ⟨⟨table, htable⟩, rfl⟩ := categories_ok hcategories
  have hstep : Retains x j.memo j₁.memo := by
    have := (categories_learned (x := x) (t := t) j.memo j .refl).retains
    rwa [hcategories] at this
  obtain ⟨hretains, hloaded, rfl⟩ :=
    mapM_packages _ (fun c hc => mem_categoryNames_iff.1 hc) hlists
  have hnames := hretains.categoryNames htable
  obtain ⟨table', htable', -⟩ := Option.map_eq_some_iff.1 (hretains.keys table htable)
  refine ⟨⟨⟨table', htable'⟩, fun c hc => hloaded c ?_⟩, ?_, hstep.trans hretains⟩
  · rw [← hnames]
    exact mem_categoryNames_iff.2 hc
  · rw [IndexMemo.catalogue, hnames]

theorem mapM_packages_of_whole {j : Journal IndexMemo} (h : Whole j.memo) (cs : List Category) :
    (cs.mapM x.packages).on t j =
      (.ok (cs.map fun c => (j.memo.packagesOf c).map fun p => (⟨c, p⟩ : QualifiedName)), j) := by
  induction cs with
  | nil => rfl
  | cons c cs ih =>
    rw [List.mapM_cons, Scan.on_bind_of_ok (packages_of_enumerated (h.enumerated c)),
      Scan.on_bind_of_ok ih]
    rfl

theorem allPackages_of_whole {j : Journal IndexMemo} (h : Whole j.memo) :
    x.allPackages.on t j = (.ok j.memo.catalogue, j) := by
  obtain ⟨table, htable⟩ := h.known
  unfold allPackages
  rw [Scan.on_bind_of_ok (categories_of_known htable),
    Scan.on_bind_of_ok (mapM_packages_of_whole h j.memo.categoryNames)]
  rfl

/-! ## Records -/

/-- The record that is remembered, or otherwise the one that the files hold. -/
def recordFrom (x : Index) (t : FileTree) (memo : IndexMemo) (n : QualifiedName) (v : Version) :
    Except Error Metadata :=
  match memo.metadata.get? (n, v) with
  | some m => .ok m
  | none => (x.generator.generate x.location n v : Scan IndexMemo Metadata).found t

/-- Of what was known at the start, nothing but records that were read is new. -/
structure Recorded (x : Index) (t : FileTree) (start memo : IndexMemo) : Prop where
  categories : memo.categories = start.categories
  packages : memo.packages = start.packages
  versions : memo.versions = start.versions
  record : ∀ n v, x.recordFrom t memo n v = x.recordFrom t start n v

theorem Recorded.refl (x : Index) (t : FileTree) (memo : IndexMemo) : Recorded x t memo memo :=
  ⟨rfl, rfl, rfl, fun _ _ => rfl⟩

theorem Recorded.of_knowledge {start : IndexMemo} (h : Recorded x t start memo)
    (hknow : knowledge memo' = knowledge memo) : Recorded x t start memo' := by
  obtain ⟨hcategories, hpackages, hversions, hmetadata⟩ := known_of_knowledge hknow
  refine ⟨hcategories.trans h.categories, hpackages.trans h.packages, hversions.trans h.versions,
    fun n v => ?_⟩
  rw [← h.record n v, recordFrom, recordFrom, hmetadata]

theorem Recorded.insert {start : IndexMemo} (h : Recorded x t start memo) {n : QualifiedName}
    {v : Version} {m : Metadata} (hm : x.recordFrom t memo n v = .ok m) :
    Recorded x t start { memo with metadata := memo.metadata.insert (n, v) m } := by
  refine ⟨h.categories, h.packages, h.versions, fun n' v' => ?_⟩
  rw [← h.record n' v', recordFrom, Table.get?_insert]
  by_cases heq : (n', v') = (n, v)
  · cases heq
    rw [if_pos rfl, hm]
  · rw [if_neg heq, recordFrom]

theorem Recorded.isLoaded {start : IndexMemo} (h : Recorded x t start memo) (c : Category) :
    memo.isLoaded c ↔ start.isLoaded c := by
  unfold IndexMemo.isLoaded
  rw [h.categories]

theorem Recorded.versionsOf {start : IndexMemo} (h : Recorded x t start memo) (n : QualifiedName) :
    memo.versionsOf n = start.versionsOf n := by
  unfold IndexMemo.versionsOf
  rw [h.versions]

theorem Recorded.catalogue {start : IndexMemo} (h : Recorded x t start memo) :
    memo.catalogue = start.catalogue := by
  unfold IndexMemo.catalogue IndexMemo.categoryNames IndexMemo.packagesOf
  rw [h.categories, h.packages]

theorem Recorded.whole {start : IndexMemo} (h : Recorded x t start memo) (hwhole : Whole start) :
    Whole memo := by
  refine ⟨h.categories ▸ hwhole.known, fun c hc => (h.isLoaded c).2 (hwhole.loaded c ?_)⟩
  rwa [IndexMemo.hasCategory, ← h.categories]

section
variable {start : IndexMemo} (hinstalled : x.layout = .installed)
include hinstalled

theorem versions_yields_known {n : QualifiedName} (hloaded : start.isLoaded n.category) :
    Yields (Recorded x t start) (x.versions n) t (.ok (start.versionsOf n)) := by
  refine .of_on fun j hj => ⟨j, ?_, hj⟩
  rw [← hj.versionsOf n]
  refine versions_of_known ?_
  rw [hinstalled]
  exact (hj.isLoaded _).2 hloaded

/-- The record of a known version is the one that is remembered, or the one that the files hold. -/
theorem metadata_yields_recordFrom {n : QualifiedName} {v : Version}
    (hloaded : start.isLoaded n.category) (hv : v ∈ start.versionsOf n) :
    Yields (Recorded x t start) (x.metadata n v) t (x.recordFrom t start n v) := by
  refine .of_on fun j hj => ?_
  rw [← hj.record n v]
  unfold metadata recordFrom
  rw [Scan.on_bind_of_ok (Scan.on_memo t j)]
  cases hnew : j.memo.metadata.get? (n, v) with
  | some m => exact ⟨j, rfl, hj⟩
  | none =>
    obtain ⟨j₁, hversions, hj₁⟩ := (versions_yields_known (t := t) hinstalled hloaded).on_eq hj
    have hhas : (x.hasVersion n v).on t j = (.ok true, j₁) := by
      unfold hasVersion
      rw [Scan.on_bind_of_ok hversions, decide_eq_true hv]
      rfl
    obtain ⟨j₂, hj₂, hknow⟩ := (reads_generate (t := t) x.generator x.location n v).on_eq j₁
    have hrecord₂ := hj₁.of_knowledge hknow
    simp only
    rw [Scan.on_bind_of_ok hhas]
    simp only [↓reduceIte]
    cases hm : (x.generator.generate x.location n v : Scan IndexMemo Metadata).found t with
    | error e =>
      rw [hm] at hj₂
      exact ⟨j₂, Scan.on_bind_of_error hj₂ _, hrecord₂⟩
    | ok m =>
      rw [hm] at hj₂
      refine ⟨_, Scan.on_bind_of_ok hj₂ _, hrecord₂.insert ?_⟩
      rw [hrecord₂.record, ← hj.record, recordFrom, hnew]
      exact hm

end

end Index

end PackageCatalog
