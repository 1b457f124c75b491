import PackageCatalog.Proofs.Index.History

/-!
# Three ways to find a package

A fresh index can be asked for a package, for the packages of its category, for the categories that
contain a package of the name, and for everything.  Each of them finds what the listing of the file
tree says; two of them look for the directory of a package alone, and the others into it, so that
they agree but for bare directories:

    x.ProbeAgrees t n ↔ ¬ x.IsBare t n                                 (probeAgrees_iff)
    x.ScanAgrees t p ↔ ∀ c, ¬ x.IsBare t ⟨c, p⟩                        (scanAgrees_iff)
-/

namespace PackageCatalog.Index

open Scan (Yields)

variable {x : Index} {t : FileTree}

/-! ## Asking for packages one by one -/

/-- What is remembered as long as packages of a tree are looked for one by one. -/
structure Probed (x : Index) (t : FileTree) (memo : IndexMemo) : Prop where
  sound : Sound x t memo
  unloaded : x.layout = .tree → ∀ c, ¬ memo.isLoaded c

theorem probed_empty : Probed x t {} where
  sound := sound_empty
  unloaded _ c := Sound.not_isLoaded rfl c

theorem categories_probed : Yields (Probed x t) x.categories t (x.categoriesIn t) := by
  refine .of_on fun j h => ?_
  obtain ⟨j', hj', hs, -, hloaded⟩ := categories_on h.sound
  exact ⟨j', hj', hs, fun ht c hl => h.unloaded ht c ((hloaded c).1 hl)⟩

/-- No bare directory is passed over. -/
theorem lookupPackage_probed (n : QualifiedName) :
    Yields (Probed x t) (x.lookupPackage n) t (x.holds t n) := by
  refine .of_on fun j h => ?_
  obtain ⟨j', hj', hs, -, hloaded⟩ := lookupPackage_on h.sound n fun hl hbare =>
    h.unloaded hbare.layout n.category hl
  exact ⟨j', hj', hs, fun ht c hl => h.unloaded ht c ((hloaded ht c).1 hl)⟩

theorem categoriesContaining_probed (p : PackageName) :
    Yields (Probed x t) (x.categoriesContaining p) t (x.answerIn t (.containing p)) :=
  categories_probed.bind fun cs _ => .filterM cs fun c _ => lookupPackage_probed ⟨c, p⟩

/-! ## Listing packages -/

/-- What is remembered as long as packages are listed. -/
structure Listed (x : Index) (t : FileTree) (memo : IndexMemo) : Prop where
  sound : Sound x t memo
  listed : ∀ c p, p ∈ memo.packagesOf c → ∃ ps, x.packagesIn t c = .ok ps ∧ p ∈ ps

theorem listed_empty : Listed x t {} where
  sound := sound_empty
  listed _ _ h := nomatch h

theorem Listed.mem {memo : IndexMemo} (h : Listed x t memo) {c : Category} {ps : List PackageName}
    (hps : x.packagesIn t c = .ok ps) : ∀ p ∈ memo.packagesOf c, p ∈ ps := by
  intro p hp
  obtain ⟨ps', hps', hmem⟩ := h.listed c p hp
  rw [hps] at hps'
  cases hps'
  exact hmem

theorem categories_listed : Yields (Listed x t) x.categories t (x.categoriesIn t) := by
  refine .of_on fun j h => ?_
  obtain ⟨j', hj', hs, hpackages, -⟩ := categories_on h.sound
  refine ⟨j', hj', hs, fun c p hp => h.listed c p ?_⟩
  rwa [IndexMemo.packagesOf, hpackages] at hp

theorem packages_listed (c : Category) :
    Yields (Listed x t) (x.packages c) t (x.packageNamesIn t c) := by
  refine .of_on fun j h => ?_
  obtain ⟨j', hs, hjoined, hj'⟩ := packages_on_of_listed h.sound fun _ hps => h.mem hps
  refine ⟨j', hj', hs, fun c' p hp => ?_⟩
  rcases hjoined.mem hp with hp | ⟨rfl, hps⟩
  · exact h.listed c' p hp
  · exact hps

theorem allPackages_listed : Yields (Listed x t) x.allPackages t (x.allPackagesIn t) :=
  categories_listed.bind fun cs _ =>
    (Yields.mapM cs fun _ _ => packages_listed _).bind fun _ _ => Scan.yields_pure _

/-! ## Fresh answers -/

theorem hasPackage_fresh (n : QualifiedName) :
    ((x.hasPackage n).run t {}).1 = x.holds t n := by
  rw [Scan.run_eq_on]
  exact (lookupPackage_probed n ⟨{}, []⟩ probed_empty).1

theorem packages_fresh (c : Category) : ((x.packages c).run t {}).1 = x.packageNamesIn t c := by
  rw [Scan.run_eq_on]
  exact (packages_listed c ⟨{}, []⟩ listed_empty).1

theorem categoriesContaining_fresh (p : PackageName) :
    ((x.categoriesContaining p).run t {}).1 = x.answerIn t (.containing p) := by
  rw [Scan.run_eq_on]
  exact (categoriesContaining_probed p ⟨{}, []⟩ probed_empty).1

theorem allPackages_fresh : (x.allPackages.run t {}).1 = x.allPackagesIn t := by
  rw [Scan.run_eq_on]
  exact (allPackages_listed ⟨{}, []⟩ listed_empty).1

/-! ## Agreement -/

theorem mem_packageNamesIn_iff {n : QualifiedName} {ns : List QualifiedName}
    (h : x.packageNamesIn t n.category = .ok ns) :
    n ∈ ns ↔ ∃ ps, x.packagesIn t n.category = .ok ps ∧ n.package ∈ ps := by
  obtain ⟨ps, hps, rfl⟩ := Scan.map_eq_ok_iff.1 h
  obtain ⟨c, p⟩ := n
  simp [hps]

/-- Only categories have packages. -/
theorem isCategory_of_mem_packagesIn {c : Category} {ps : List PackageName}
    (h : x.packagesIn t c = .ok ps) {p : PackageName} (hp : p ∈ ps) :
    x.isCategory t c = .ok true := by
  obtain ⟨known, hc, h⟩ := Scan.bind_eq_ok_iff.1 h
  cases known with
  | true => exact hc
  | false =>
    cases h
    cases hp

/-- Bare directories apart, a package exists if it is listed. -/
theorem holds_iff_mem {n : QualifiedName} (hbare : ¬ x.IsBare t n) {b : Bool}
    (hb : x.holds t n = .ok b) {ps : List PackageName} (hps : x.packagesIn t n.category = .ok ps) :
    b = true ↔ n.package ∈ ps := by
  constructor
  · rintro rfl
    rw [packagesIn_eq (isCategory_of_holds hb), if_pos rfl] at hps
    exact mem_listedPackages_of_holds hb hbare hps
  · intro hp
    have hc := isCategory_of_mem_packagesIn hps hp
    rw [packagesIn_eq hc, if_pos rfl] at hps
    have htrue := holds_of_mem_listedPackages hc hps hp
    rw [show (⟨n.category, n.package⟩ : QualifiedName) = n from rfl, hb] at htrue
    exact Except.ok.inj htrue

theorem exists_packagesIn {c : Category} {ns : List QualifiedName}
    (h : x.packageNamesIn t c = .ok ns) : ∃ ps, x.packagesIn t c = .ok ps := by
  obtain ⟨ps, hps, -⟩ := Scan.map_eq_ok_iff.1 h
  exact ⟨ps, hps⟩

/-- Where the packages of a category can be listed, it can be told whether one of them exists. -/
theorem exists_holds {n : QualifiedName} {ps : List PackageName}
    (h : x.packagesIn t n.category = .ok ps) : ∃ b, x.holds t n = .ok b := by
  obtain ⟨known, hc, -⟩ := Scan.bind_eq_ok_iff.1 h
  cases known with
  | false => exact ⟨false, holds_of_not_isCategory hc⟩
  | true =>
    rw [packagesIn_eq hc, if_pos rfl] at h
    cases hlayout : x.layout with
    | tree => exact ⟨_, holds_tree hc hlayout⟩
    | installed =>
      rw [holds_installed hc hlayout, h]
      exact ⟨_, rfl⟩

theorem holds_iff_packagesIn {n : QualifiedName} (hbare : ¬ x.IsBare t n) {ns : List QualifiedName}
    (hns : x.packageNamesIn t n.category = .ok ns) : x.holds t n = .ok true ↔
      ∃ ps, x.packagesIn t n.category = .ok ps ∧ n.package ∈ ps := by
  obtain ⟨ps, hps⟩ := exists_packagesIn hns
  obtain ⟨b, hb⟩ := exists_holds hps
  have hmem := holds_iff_mem hbare hb hps
  rw [hb, hps]
  simpa using hmem

/-- A bare directory is not among the packages of its category. -/
theorem IsBare.notMem {n : QualifiedName} (h : x.IsBare t n) :
    ∃ ns, x.packageNamesIn t n.category = .ok ns ∧ n ∉ ns := by
  obtain ⟨dirs, hdirs, -⟩ := mem_subdirectoriesIn_of_isDirectory h.directory
  obtain ⟨ps, hps, -⟩ := listedPackages_ok (x := x) hdirs
  have hpackages : x.packagesIn t n.category = .ok ps := by
    rw [packagesIn_eq h.category, if_pos rfl, hps]
  have hns : x.packageNamesIn t n.category = .ok (ps.map fun p => ⟨n.category, p⟩) := by
    rw [packageNamesIn, hpackages]
    rfl
  refine ⟨_, hns, fun hn => ?_⟩
  obtain ⟨ps', hps', hp⟩ := (mem_packageNamesIn_iff hns).1 hn
  rw [hpackages] at hps'
  cases hps'
  have hentries := ((mem_listedPackages_iff h.layout hps).1 hp).2
  rw [show (⟨n.category, n.package⟩ : QualifiedName) = n from rfl, h.entries] at hentries
  cases hentries

/-- A fresh index finds a package just if another one lists it among the packages of its category.
-/
def ProbeAgrees (x : Index) (t : FileTree) (n : QualifiedName) : Prop :=
  ∀ b ns, ((x.hasPackage n).run t {}).1 = .ok b → ((x.packages n.category).run t {}).1 = .ok ns →
    (b = true ↔ n ∈ ns)

/-- A fresh index finds a package name just in the categories for which another one lists it. -/
def ScanAgrees (x : Index) (t : FileTree) (p : PackageName) : Prop :=
  ∀ cs, ((x.categoriesContaining p).run t {}).1 = .ok cs →
    ∀ c ns, ((x.packages c).run t {}).1 = .ok ns → (c ∈ cs ↔ ⟨c, p⟩ ∈ ns)

theorem probeAgrees_iff {n : QualifiedName} : x.ProbeAgrees t n ↔ ¬ x.IsBare t n := by
  unfold ProbeAgrees
  simp only [hasPackage_fresh, packages_fresh]
  constructor
  · intro hagrees hbare
    obtain ⟨ns, hns, hnot⟩ := hbare.notMem
    exact hnot ((hagrees true ns hbare.holds hns).1 rfl)
  · intro hbare b ns hb hns
    have hholds := holds_iff_packagesIn hbare hns
    rw [mem_packageNamesIn_iff hns, ← hholds, hb, Except.ok.injEq]

/-- Keeping the members that fit leaves the rest of a list in its order. -/
theorem filterM_spec {α : Type} {f : α → Except Error Bool} {xs ys : List α}
    (h : xs.filterM f = .ok ys) :
    ys.Sublist xs ∧ ∀ a, a ∈ ys ↔ a ∈ xs ∧ f a = .ok true := by
  induction xs generalizing ys with
  | nil =>
    cases h
    simp
  | cons b xs ih =>
    rw [Scan.filterM_cons] at h
    obtain ⟨keep, hb, h⟩ := Scan.bind_eq_ok_iff.1 h
    obtain ⟨kept, hkept, h⟩ := Scan.bind_eq_ok_iff.1 h
    obtain ⟨hsublist, hmem⟩ := ih hkept
    cases h
    have hfirst : ∀ a, a = b → (f a = .ok true ↔ keep = true) := by
      rintro a rfl
      rw [hb, Except.ok.injEq]
    cases keep with
    | true =>
      refine ⟨hsublist.cons_cons b, fun a => ?_⟩
      rw [if_pos rfl, List.mem_cons, List.mem_cons, hmem, or_and_right]
      exact or_congr_left ⟨fun ha => ⟨ha, (hfirst a ha).2 rfl⟩, And.left⟩
    | false =>
      refine ⟨hsublist.cons b, fun a => ?_⟩
      rw [if_neg Bool.false_ne_true, List.mem_cons, hmem, or_and_right]
      exact (or_iff_right fun ⟨ha, htrue⟩ => absurd ((hfirst a ha).1 htrue) nofun).symm

theorem mem_categoriesIn_iff {cs : List Category} (h : x.categoriesIn t = .ok cs) {c : Category} :
    c ∈ cs ↔ x.isCategory t c = .ok true := by
  obtain ⟨found, hfound, rfl⟩ := Scan.map_eq_ok_iff.1 h
  rw [isCategory, hfound, Ascending.mem_ofList, ← Table.contains_iff]
  exact ⟨congrArg Except.ok, Except.ok.inj⟩

theorem answerIn_containing (p : PackageName) : x.answerIn t (.containing p) =
    (x.categoriesIn t >>= fun cs => cs.filterM fun c => x.holds t ⟨c, p⟩) := rfl

/-- A category contains a package name if the package exists. -/
theorem mem_containing_iff {p : PackageName} {cs : List Category}
    (h : x.answerIn t (.containing p) = .ok cs) {c : Category} :
    c ∈ cs ↔ x.holds t ⟨c, p⟩ = .ok true := by
  obtain ⟨all, hall, h⟩ := Scan.bind_eq_ok_iff.1 ((answerIn_containing p).symm.trans h)
  rw [(filterM_spec h).2, mem_categoriesIn_iff hall]
  exact and_iff_right_of_imp fun hholds => isCategory_of_holds (n := ⟨c, p⟩) hholds

theorem sorted_containing {p : PackageName} {cs : List Category}
    (h : x.answerIn t (.containing p) = .ok cs) : Ascending.Sorted cs := by
  obtain ⟨all, hall, h⟩ := Scan.bind_eq_ok_iff.1 ((answerIn_containing p).symm.trans h)
  obtain ⟨found, -, rfl⟩ := Scan.map_eq_ok_iff.1 hall
  exact (Ascending.sorted_ofList found.keys).sublist (filterM_spec h).1

theorem exists_filterM {α : Type} {f : α → Except Error Bool} {xs : List α}
    (h : ∀ a ∈ xs, ∃ b, f a = .ok b) : ∃ ys, xs.filterM f = .ok ys := by
  induction xs with
  | nil => exact ⟨[], rfl⟩
  | cons a xs ih =>
    obtain ⟨⟨b, hb⟩, hxs⟩ := List.forall_mem_cons.1 h
    obtain ⟨ys, hys⟩ := ih hxs
    rw [Scan.filterM_cons, hb, hys]
    exact ⟨_, rfl⟩

/-- The categories that contain a name are found if it can be told of each category. -/
theorem exists_containing {all : List Category} (hall : x.categoriesIn t = .ok all)
    {p : PackageName} (h : ∀ c, x.isCategory t c = .ok true → ∃ b, x.holds t ⟨c, p⟩ = .ok b) :
    ∃ cs, x.answerIn t (.containing p) = .ok cs := by
  rw [answerIn_containing, hall]
  exact exists_filterM fun c hc => h c ((mem_categoriesIn_iff hall).1 hc)

/-- A bare directory counts when its name is looked for. -/
theorem IsBare.mem_containing {c : Category} {p : PackageName} (h : x.IsBare t ⟨c, p⟩) :
    ∃ cs, x.answerIn t (.containing p) = .ok cs ∧ c ∈ cs := by
  obtain ⟨found, hfound, -⟩ := Scan.map_eq_ok_iff.1 h.category
  have hall : x.categoriesIn t = .ok (Ascending.ofList found.keys) := by
    rw [categoriesIn, hfound]
    rfl
  obtain ⟨cs, hcs⟩ := exists_containing hall fun c' hc' =>
    ⟨_, holds_tree (n := ⟨c', p⟩) hc' h.layout⟩
  exact ⟨cs, hcs, (mem_containing_iff hcs).2 h.holds⟩

theorem scanAgrees_iff {p : PackageName} : x.ScanAgrees t p ↔ ∀ c, ¬ x.IsBare t ⟨c, p⟩ := by
  unfold ScanAgrees
  simp only [categoriesContaining_fresh, packages_fresh]
  constructor
  · intro hagrees c hbare
    obtain ⟨cs, hcs, hc⟩ := hbare.mem_containing
    obtain ⟨ns, hns, hnot⟩ := hbare.notMem
    exact hnot ((hagrees cs hcs c ns hns).1 hc)
  · intro hbare cs hcs c ns hns
    rw [mem_containing_iff hcs, mem_packageNamesIn_iff (n := ⟨c, p⟩) hns]
    exact holds_iff_packagesIn (hbare c) hns

end PackageCatalog.Index
