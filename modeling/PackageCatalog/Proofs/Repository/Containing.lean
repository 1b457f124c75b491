import PackageCatalog.Proofs.Index.Agreement
import PackageCatalog.Proofs.NamesCache.RoundTrip
import PackageCatalog.Repository.Installed

/-!
# Looking for a package name with and without a names cache

A names cache is regenerated from what an index lists, while without one the index looks for the
directory of the package in each category.  The two answers are the same but for bare directories
(`packageChecks_agree_iff`), which are found and not listed.
-/

namespace PackageCatalog

/-! ## What is listed -/

namespace Index

variable {x : Index} {t : FileTree}

/-- If all packages can be listed, so can the categories and the packages of each. -/
theorem exists_listings {ns : List QualifiedName} (h : x.allPackagesIn t = .ok ns) :
    ∃ cs lists, x.categoriesIn t = .ok cs ∧ cs.mapM (x.packageNamesIn t) = .ok lists ∧
      ns = Ascending.ofList lists.flatten := by
  obtain ⟨cs, hcs, h⟩ := Scan.bind_eq_ok_iff.1 h
  obtain ⟨lists, hlists, h⟩ := Scan.bind_eq_ok_iff.1 h
  cases h
  exact ⟨cs, lists, hcs, hlists, rfl⟩

theorem exists_packageNamesIn {ns : List QualifiedName} (h : x.allPackagesIn t = .ok ns)
    {c : Category} (hc : x.isCategory t c = .ok true) :
    ∃ listed, x.packageNamesIn t c = .ok listed := by
  obtain ⟨cs, lists, hcs, hlists, -⟩ := exists_listings h
  obtain ⟨listed, -, hlisted⟩ :=
    (Scan.mapM_spec hlists).1 c ((mem_categoriesIn_iff hcs).2 hc)
  exact ⟨listed, hlisted⟩

theorem mem_allPackagesIn_iff {ns : List QualifiedName} (h : x.allPackagesIn t = .ok ns)
    {n : QualifiedName} : n ∈ ns ↔ ∃ ps, x.packagesIn t n.category = .ok ps ∧ n.package ∈ ps := by
  obtain ⟨cs, lists, hcs, hlists, rfl⟩ := exists_listings h
  obtain ⟨hleft, hright⟩ := Scan.mapM_spec hlists
  rw [Ascending.mem_ofList, List.mem_flatten]
  constructor
  · rintro ⟨listed, hlisted, hn⟩
    obtain ⟨c, -, hc⟩ := hright listed hlisted
    obtain ⟨ps, hps, rfl⟩ := Scan.map_eq_ok_iff.1 hc
    obtain ⟨p, hp, rfl⟩ := List.mem_map.1 hn
    exact ⟨ps, hps, hp⟩
  · rintro ⟨ps, hps, hp⟩
    have hmem := (mem_categoriesIn_iff hcs).2 (isCategory_of_mem_packagesIn hps hp)
    obtain ⟨listed, hlisted, hnames⟩ := hleft n.category hmem
    exact ⟨listed, hlisted, (mem_packageNamesIn_iff hnames).2 ⟨ps, hps, hp⟩⟩

theorem mem_categoriesOf_iff {packages : List QualifiedName} {p : PackageName} {c : Category} :
    c ∈ NamesCache.categoriesOf packages p ↔ ⟨c, p⟩ ∈ packages := by
  unfold NamesCache.categoriesOf
  rw [Ascending.mem_ofList, List.mem_map]
  simp only [List.mem_filter, decide_eq_true_eq]
  constructor
  · rintro ⟨⟨c', p'⟩, ⟨hn, rfl⟩, rfl⟩
    exact hn
  · intro hn
    exact ⟨_, ⟨hn, rfl⟩, rfl⟩

/-- A name is found where packages of the name are listed if and only if no directory of the name
is bare. -/
theorem containing_eq_iff {ns : List QualifiedName} (h : x.allPackagesIn t = .ok ns)
    (p : PackageName) : x.answerIn t (.containing p) = .ok (NamesCache.categoriesOf ns p) ↔
      ∀ c, ¬ x.IsBare t ⟨c, p⟩ := by
  constructor
  · intro heq c hbare
    obtain ⟨listed, hlisted, hnot⟩ := hbare.notMem
    have hc := (mem_containing_iff heq).2 hbare.holds
    rw [mem_categoriesOf_iff, mem_allPackagesIn_iff h] at hc
    exact hnot ((mem_packageNamesIn_iff hlisted).2 hc)
  · intro hbare
    obtain ⟨all, -, hall, -, -⟩ := exists_listings h
    obtain ⟨cs, hcs⟩ := exists_containing hall fun c hc => by
      obtain ⟨listed, hnames⟩ := exists_packageNamesIn h hc
      obtain ⟨ps, hps⟩ := exists_packagesIn hnames
      exact exists_holds (n := ⟨c, p⟩) hps
    rw [hcs]
    refine congrArg Except.ok ((sorted_containing hcs).eq_of_mem_iff (Ascending.sorted_ofList _)
      fun c => ?_)
    show c ∈ cs ↔ c ∈ NamesCache.categoriesOf ns p
    rw [mem_containing_iff hcs, mem_categoriesOf_iff, mem_allPackagesIn_iff h]
    constructor
    · intro hholds
      obtain ⟨listed, hnames⟩ := exists_packageNamesIn h (isCategory_of_holds (n := ⟨c, p⟩) hholds)
      exact (holds_iff_packagesIn (hbare c) hnames).1 hholds
    · rintro ⟨ps, hps, hp⟩
      have hnames : x.packageNamesIn t c = .ok (ps.map fun p => ⟨c, p⟩) := by
        rw [packageNamesIn, show x.packagesIn t c = .ok ps from hps]
        rfl
      exact (holds_iff_packagesIn (n := ⟨c, p⟩) (hbare c) hnames).2 ⟨ps, hps, hp⟩

end Index

/-! ## The cache of what is listed -/

open NamesCache (Overlooked ofBase)

namespace NamesCache

/-- A cache that was regenerated without a report answers the categories that were listed, the
version file and overlooked fragments apart. -/
theorem answerIn_regenerated {base : String} {name : RepositoryName} {packages : List QualifiedName}
    {w w' : Workspace NamesMemo} (hlocation : isDisabled (ofBase base name.text).location = false)
    (hrun : ((ofBase base name.text).regenerate packages).on w = (.ok (), w'))
    (hwarnings : w'.warnings = w.warnings) {p : PackageName} (hp : p.text ≠ versionFileName)
    (hseen : ¬ Overlooked (ofBase base name.text) w.files p) :
    w'.memo = (ofBase base name.text).freshMemo ∧
      (ofBase base name.text).answerIn w'.files p = some (categoriesOf packages p) := by
  obtain ⟨hmemo, steps, hsteps, hperformed⟩ := regenerate_on hlocation hrun hwarnings
  have hl := isPlace_ofBase hlocation
  exact ⟨hmemo, (written_of_performed hl hsteps hperformed).answerIn hlocation hl name.isLine hp
    hseen⟩

end NamesCache

/-- A names cache was regenerated, without a report, from all that a fresh index lists. -/
structure Regenerated (x : Index) (base : String) (name : RepositoryName) (t : FileTree)
    (w : Workspace NamesMemo) : Prop where
  enabled : isDisabled (ofBase base name.text).location = false
  run : ∃ ns, (x.allPackages.run t {}).1 = .ok ns ∧ ((ofBase base name.text).regenerate ns).on
    ⟨t, (ofBase base name.text).freshMemo, []⟩ = (.ok (), w)
  silent : w.warnings = []

theorem Regenerated.lookup_run {x : Index} {base : String} {name : RepositoryName} {t : FileTree}
    {w : Workspace NamesMemo} (h : Regenerated x base name t w) {p : PackageName}
    (hp : p.text ≠ versionFileName) (hseen : ¬ Overlooked (ofBase base name.text) t p) :
    ∃ ns, x.allPackagesIn t = .ok ns ∧ (((ofBase base name.text).lookup p).run w.files w.memo).1 =
      .ok (some (NamesCache.categoriesOf ns p)) := by
  obtain ⟨ns, hns, hrun⟩ := h.run
  obtain ⟨hmemo, hanswer⟩ :=
    NamesCache.answerIn_regenerated h.enabled hrun (by rw [h.silent]) hp hseen
  refine ⟨ns, Index.allPackages_fresh.symm.trans hns, ?_⟩
  rw [hmemo, NamesCache.lookup_run NamesCache.sound_freshMemo, hanswer]

theorem lookup_disabled (repository : String) (p : PackageName) (t : FileTree) :
    ∃ j', ((ofBase disabledLocation repository).lookup p).on t
      ⟨(ofBase disabledLocation repository).freshMemo, []⟩ = (.ok none, j') := by
  have hdisabled : isDisabled disabledLocation = true := Path.same_refl disabledLocation
  have hanswer : (ofBase disabledLocation repository).answerIn t p = none := by
    rw [NamesCache.answerIn, ofBase, hdisabled, if_pos rfl, if_pos hdisabled]
  have hyields := NamesCache.lookup_yields (c := ofBase disabledLocation repository) (t := t) p
  rw [hanswer] at hyields
  obtain ⟨j', hj', -⟩ := hyields.on_eq (j := ⟨_, []⟩) NamesCache.sound_freshMemo
  exact ⟨j', hj'⟩

/-! ## Repositories with and without their cache -/

/-- Where in its memo a repository keeps what its names cache and its index remember. -/
structure MemoParts (σ : Type) where
  names : σ → NamesMemo
  setNames : σ → NamesMemo → σ
  index : σ → IndexMemo
  setIndex : σ → IndexMemo → σ
  names_setNames : ∀ memo n, names (setNames memo n) = n
  index_setNames : ∀ memo n, index (setNames memo n) = index memo

namespace MemoParts

variable {σ : Type} (parts : MemoParts σ)

/-- The names cache, if it can be used, saves the index from being asked. -/
def containing (c : NamesCache) (x : Index) (p : PackageName) : Scan σ (List Category) := do
  match ← Scan.zoom parts.names parts.setNames (c.lookup p) with
  | some categories => return categories
  | none => Scan.zoom parts.index parts.setIndex (x.categoriesContaining p)

variable {parts} {c : NamesCache} {x : Index} {t : FileTree} {p : PackageName}

theorem containing_of_lookup {memo : σ} {cs : List Category}
    (h : ((c.lookup p).run t (parts.names memo)).1 = .ok (some cs)) :
    ((parts.containing c x p).run t memo).1 = .ok cs := by
  have hnames := Scan.on_zoom parts.names parts.setNames (c.lookup p) t ⟨memo, []⟩
  rw [show (((c.lookup p).on t ⟨parts.names memo, []⟩).1 = _) from h] at hnames
  rw [Scan.run_eq_on, containing, Scan.on_bind_of_ok hnames]
  rfl

theorem containing_of_disabled {fresh : σ} {repository : String}
    (hnames : parts.names fresh = (ofBase disabledLocation repository).freshMemo)
    (hindex : parts.index fresh = {}) :
    ((parts.containing (ofBase disabledLocation repository) x p).run t fresh).1 =
      x.answerIn t (.containing p) := by
  obtain ⟨j', hj'⟩ := lookup_disabled repository p t
  have hlookup := Scan.on_zoom parts.names parts.setNames
    ((ofBase disabledLocation repository).lookup p) t ⟨fresh, []⟩
  simp only [hnames, hj'] at hlookup
  rw [Scan.run_eq_on, containing, Scan.on_bind_of_ok hlookup]
  simp only [Scan.on_zoom, parts.index_setNames, hindex]
  exact (Index.categoriesContaining_probed p ⟨{}, j'.warnings⟩ Index.probed_empty).1

/-- The answers with the cache and without it are the same but for bare directories. -/
theorem containing_agrees_iff (parts : MemoParts σ) {base : String} {name : RepositoryName}
    {w : Workspace NamesMemo} (h : Regenerated x base name t w) (hp : p.text ≠ versionFileName)
    (hseen : ¬ Overlooked (ofBase base name.text) t p) (fresh : σ) (repository : String)
    (hnames : parts.names fresh = (ofBase disabledLocation repository).freshMemo)
    (hindex : parts.index fresh = {}) :
    (∀ memo, parts.names memo = w.memo →
      ((parts.containing (ofBase base name.text) x p).run w.files memo).1 =
        ((parts.containing (ofBase disabledLocation repository) x p).run t fresh).1) ↔
      ∀ c, ¬ x.IsBare t ⟨c, p⟩ := by
  obtain ⟨ns, hns, hlookup⟩ := h.lookup_run hp hseen
  have hcached : ∀ memo, parts.names memo = w.memo →
      ((parts.containing (ofBase base name.text) x p).run w.files memo).1 =
        .ok (NamesCache.categoriesOf ns p) := fun memo hmemo =>
    containing_of_lookup (by rw [hmemo, hlookup])
  rw [← Index.containing_eq_iff hns, containing_of_disabled hnames hindex]
  constructor
  · intro hagrees
    have hmemo := parts.names_setNames fresh w.memo
    rw [← hagrees _ hmemo, hcached _ hmemo]
  · intro heq memo hmemo
    rw [hcached memo hmemo, heq]

end MemoParts

namespace EbuildRepository

/-- The repository with its names cache switched off. -/
def uncached (r : EbuildRepository) : EbuildRepository :=
  { r with namesCache := ofBase disabledLocation r.name }

/-- With its cache in a workspace the repository answers, whatever else it remembers, what it
answers on a tree when it is made without the cache. -/
def CacheAgrees (r : EbuildRepository) (t : FileTree) (w : Workspace NamesMemo)
    (p : PackageName) : Prop :=
  ∀ memo : EbuildMemo, memo.names = w.memo →
    ((r.answer (.containing p)).run w.files memo).1 =
      ((r.uncached.answer (.containing p)).run t r.uncached.freshMemo).1

def memoParts : MemoParts EbuildMemo where
  names := EbuildMemo.names
  setNames memo names := { memo with names := names }
  index := EbuildMemo.index
  setIndex memo index := { memo with index := index }
  names_setNames _ _ := rfl
  index_setNames _ _ := rfl

theorem answer_containing (r : EbuildRepository) (p : PackageName) :
    r.answer (.containing p) = memoParts.containing r.namesCache r.index p := rfl

end EbuildRepository

namespace InstalledRepository

/-- The database with its names cache switched off. -/
def uncached (r : InstalledRepository) : InstalledRepository :=
  { r with namesCache := ofBase disabledLocation r.name.text }

/-- With its cache in a workspace the database answers, whatever else it remembers, what it answers
on a tree when it is made without the cache. -/
def CacheAgrees (r : InstalledRepository) (t : FileTree) (w : Workspace NamesMemo)
    (p : PackageName) : Prop :=
  ∀ memo : InstalledMemo, memo.names = w.memo →
    ((r.answer (.containing p)).run w.files memo).1 =
      ((r.uncached.answer (.containing p)).run t r.uncached.freshMemo).1

def memoParts : MemoParts InstalledMemo where
  names := InstalledMemo.names
  setNames memo names := { memo with names := names }
  index := InstalledMemo.index
  setIndex memo index := { memo with index := index }
  names_setNames _ _ := rfl
  index_setNames _ _ := rfl

theorem answer_containing (r : InstalledRepository) (p : PackageName) :
    r.answer (.containing p) = memoParts.containing r.namesCache r.index p := rfl

end InstalledRepository

/-! ## All ways agree but for bare directories -/

/-- The check for one package, the search through the categories and the names cache agree with what
is listed if and only if no directory that they meet is bare. -/
theorem packageChecks_agree_iff (x : Index) (t : FileTree) :
    (∀ n, x.ProbeAgrees t n ↔ ¬ x.IsBare t n) ∧
    (∀ p, x.ScanAgrees t p ↔ ∀ c, ¬ x.IsBare t ⟨c, p⟩) ∧
    ∀ (base : String) (name : RepositoryName) (w : Workspace NamesMemo),
      Regenerated x base name t w → ∀ p, p.text ≠ versionFileName →
        ¬ Overlooked (ofBase base name.text) t p →
        (∀ r : EbuildRepository, r.index = x → r.namesCache = ofBase base name.text →
          (r.CacheAgrees t w p ↔ ∀ c, ¬ x.IsBare t ⟨c, p⟩)) ∧
        ∀ r : InstalledRepository, r.index = x → r.namesCache = ofBase base name.text →
          (r.CacheAgrees t w p ↔ ∀ c, ¬ x.IsBare t ⟨c, p⟩) := by
  refine ⟨fun n => Index.probeAgrees_iff, fun p => Index.scanAgrees_iff,
    fun base name w hw p hp hseen => ⟨?_, ?_⟩⟩
  · rintro r rfl hcache
    unfold EbuildRepository.CacheAgrees
    simp only [EbuildRepository.answer_containing, hcache]
    exact EbuildRepository.memoParts.containing_agrees_iff hw hp hseen r.uncached.freshMemo r.name
      rfl rfl
  · rintro r rfl hcache
    unfold InstalledRepository.CacheAgrees
    simp only [InstalledRepository.answer_containing, hcache]
    exact InstalledRepository.memoParts.containing_agrees_iff hw hp hseen r.uncached.freshMemo
      r.name.text rfl rfl

/-! ### The tree with a bare directory -/

/-- Its names cache, written anew. -/
def bareNames : Workspace NamesMemo :=
  (((ofBase "/n" "r").regenerate []).on ⟨Index.bareTree, (ofBase "/n" "r").freshMemo, []⟩).2

def bareRepository : EbuildRepository where
  name := "r"
  location := "/r"
  masterLocation := none
  transport := none
  targets := ""
  options := ""
  index := Index.bareIndex
  profiles := ⟨"r", ["/r/profiles"], [], .none⟩
  namesCache := ofBase "/n" "r"

theorem regenerated_bareNames :
    Regenerated Index.bareIndex "/n" ⟨"r", by decide⟩ Index.bareTree bareNames where
  enabled := by decide +kernel
  run := ⟨[], by decide +kernel, Prod.ext (by decide +kernel) rfl⟩
  silent := by decide +kernel

theorem not_overlooked_bareName :
    ¬ Overlooked (ofBase "/n" "r") Index.bareTree Index.bareName.package := by
  rintro ⟨-, -, content, hfragment, -⟩
  rw [show Index.bareTree.get? (FileTree.placeOf (ofBase "/n" "r").location ++
    [Index.bareName.package.text]) = none by decide +kernel] at hfragment
  cases hfragment

theorem packageChecks_agree_iff_bareNames :
    Regenerated Index.bareIndex "/n" ⟨"r", by decide⟩ Index.bareTree bareNames ∧
    Index.bareName.package.text ≠ versionFileName ∧
    ¬ Overlooked (ofBase "/n" "r") Index.bareTree Index.bareName.package ∧
    (bareRepository.CacheAgrees Index.bareTree bareNames Index.bareName.package ↔
      ∀ c, ¬ Index.bareIndex.IsBare Index.bareTree ⟨c, Index.bareName.package⟩) :=
  ⟨regenerated_bareNames, by decide, not_overlooked_bareName,
    ((packageChecks_agree_iff Index.bareIndex Index.bareTree).2.2 "/n" ⟨"r", by decide⟩ bareNames
      regenerated_bareNames Index.bareName.package (by decide) not_overlooked_bareName).1
      bareRepository rfl rfl⟩

/-- The directory is found and not listed, without a names cache; with one it is not found. -/
theorem not_agree_bareName :
    ¬ Index.bareIndex.ProbeAgrees Index.bareTree Index.bareName ∧
    ¬ Index.bareIndex.ScanAgrees Index.bareTree Index.bareName.package ∧
    Regenerated Index.bareIndex "/n" ⟨"r", by decide⟩ Index.bareTree bareNames ∧
    ¬ bareRepository.CacheAgrees Index.bareTree bareNames Index.bareName.package := by
  refine ⟨fun h => ?_, fun h => ?_, regenerated_bareNames, fun h => ?_⟩
  · have := h true [] (by decide +kernel) (by decide +kernel)
    simp at this
  · have := h [Index.bareName.category] (by decide +kernel) Index.bareName.category [] (by decide +kernel)
    simp at this
  · have := h { names := bareNames.memo } rfl
    revert this
    decide +kernel

end PackageCatalog
