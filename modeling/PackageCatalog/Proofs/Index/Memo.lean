import PackageCatalog.Proofs.Index.Reading

/-!
# What an index remembers

A memo is *sound* if all that it knows is what the listing of the file tree says.  Every step of an
index keeps its memo sound (`needPackages_on`, `lookupPackage_on`), and one that is to make the
packages of a category known adds all that are listed to those that were known before.

The packages of a loaded category need not be the listed ones: one that was found by its directory
alone stays known.
-/

namespace PackageCatalog

attribute [ext] IndexMemo

namespace IndexMemo

def isLoaded (memo : IndexMemo) (c : Category) : Prop :=
  memo.categories.bind (·.get? c) = some true

theorem packagesOf_addPackage (memo : IndexMemo) (n : QualifiedName) (c : Category) :
    (memo.addPackage n).packagesOf c =
      if c = n.category then Ascending.insert n.package (memo.packagesOf c)
      else memo.packagesOf c := by
  unfold addPackage packagesOf Table.update
  rw [Table.get?_insert]
  by_cases hc : c = n.category
  · simp [hc]
  · simp [hc]

theorem mem_packagesOf_addPackage {memo : IndexMemo} {n : QualifiedName} {c : Category}
    {p : PackageName} : p ∈ (memo.addPackage n).packagesOf c ↔
      ⟨c, p⟩ = n ∨ p ∈ memo.packagesOf c := by
  rw [packagesOf_addPackage]
  obtain ⟨c', p'⟩ := n
  rw [QualifiedName.mk.injEq]
  by_cases hc : c = c'
  · rw [if_pos hc, Ascending.mem_insert]
    simp [hc]
  · rw [if_neg hc]
    simp [hc]

theorem versionsOf_addVersion (memo : IndexMemo) (n n' : QualifiedName) (v : Version) :
    (memo.addVersion n v).versionsOf n' =
      if n' = n then Ascending.insert v (memo.versionsOf n') else memo.versionsOf n' := by
  unfold addVersion versionsOf Table.update
  rw [Table.get?_insert]
  by_cases hn : n' = n
  · simp [hn]
  · simp [hn]

/-- Packages are added to a category one by one; nothing else changes. -/
theorem foldl_addPackage (ps : List PackageName) (c : Category) (memo : IndexMemo) :
    (∀ c', (ps.foldl (fun memo p => memo.addPackage ⟨c, p⟩) memo).packagesOf c' =
      if c' = c then ps.foldl (fun known p => Ascending.insert p known) (memo.packagesOf c')
      else memo.packagesOf c') ∧
    { ps.foldl (fun memo p => memo.addPackage ⟨c, p⟩) memo with packages := memo.packages } =
      memo := by
  induction ps generalizing memo with
  | nil => simp
  | cons p ps ih =>
    obtain ⟨hpackages, hrest⟩ := ih (memo.addPackage ⟨c, p⟩)
    refine ⟨fun c' => ?_, ?_⟩
    · rw [List.foldl_cons, hpackages c', packagesOf_addPackage, List.foldl_cons]
      by_cases hc : c' = c
      · simp only [hc, ↓reduceIte]
      · simp only [hc, ↓reduceIte]
    · rw [List.foldl_cons]
      exact congrArg (fun m : IndexMemo => { m with packages := memo.packages }) hrest

/-- Versions are added to the packages of a category one by one; nothing else changes. -/
theorem foldl_addVersion (rs : List (PackageName × Version)) (c : Category) (memo : IndexMemo) :
    (∀ n, (rs.foldl (fun memo r => memo.addVersion ⟨c, r.1⟩ r.2) memo).versionsOf n =
      if n.category = c then
        ((rs.filter fun r => r.1 = n.package).map Prod.snd).foldl
          (fun known v => Ascending.insert v known) (memo.versionsOf n)
      else memo.versionsOf n) ∧
    { rs.foldl (fun memo r => memo.addVersion ⟨c, r.1⟩ r.2) memo with versions := memo.versions } =
      memo := by
  induction rs generalizing memo with
  | nil => simp
  | cons r rs ih =>
    obtain ⟨hversions, hrest⟩ := ih (memo.addVersion ⟨c, r.1⟩ r.2)
    refine ⟨fun n => ?_, ?_⟩
    · rw [List.foldl_cons, hversions n, versionsOf_addVersion, List.filter_cons]
      obtain ⟨c', p⟩ := n
      by_cases hc : c' = c
      · by_cases hp : r.1 = p
        · simp only [hc, hp, ↓reduceIte, decide_true, List.map_cons, List.foldl_cons]
        · simp only [hc, hp, ↓reduceIte, decide_false, QualifiedName.mk.injEq, true_and,
            Ne.symm hp, Bool.false_eq_true]
      · simp only [hc, ↓reduceIte, QualifiedName.mk.injEq, false_and]
    · rw [List.foldl_cons]
      exact congrArg (fun m : IndexMemo => { m with versions := memo.versions }) hrest

theorem isLoaded_setLoaded_iff {memo : IndexMemo} {c c' : Category} {table : Table Category Bool}
    (h : memo.categories = some table) :
    (memo.setLoaded c).isLoaded c' ↔ c' = c ∨ memo.isLoaded c' := by
  unfold isLoaded setLoaded
  rw [h]
  simp only [Option.map_some, Option.bind_some, Table.get?_insert]
  by_cases hc : c' = c
  · simp [hc]
  · simp [hc]

end IndexMemo

namespace Index

open IndexMemo (knowledge)
open Scan (Reads Yields)

variable {x : Index} {t : FileTree}

/-! ## Sound memos -/

/-- What is remembered is what the listing says.  A category of an installed-package database is
known as a whole or not at all. -/
structure Sound (x : Index) (t : FileTree) (memo : IndexMemo) : Prop where
  categories : ∀ table, memo.categories = some table →
    ∃ found, x.listedCategories t = .ok found ∧ table.keys = found.keys
  known : ∀ n : QualifiedName, n.package ∈ memo.packagesOf n.category → x.holds t n = .ok true
  sorted : ∀ c, Ascending.Sorted (memo.packagesOf c)
  loaded : ∀ c, memo.isLoaded c →
    ∃ ps, x.listedPackages t c = .ok ps ∧ ∀ p ∈ ps, p ∈ memo.packagesOf c
  versions : x.layout = .tree →
    ∀ n vs, memo.versions.get? n = some vs → x.versionsIn t n = .ok vs
  whole : x.layout = .installed →
    ∀ n : QualifiedName, memo.isLoaded n.category → x.listedVersions t n = .ok (memo.versionsOf n)
  nothing : x.layout = .installed → ∀ n : QualifiedName, ¬ memo.isLoaded n.category →
    memo.packagesOf n.category = [] ∧ memo.versionsOf n = []
  metadata : ∀ n v m, memo.metadata.get? (n, v) = some m → x.recordIn t n v = .ok m

theorem sound_empty : Sound x t {} where
  categories _ h := nomatch h
  known _ h := nomatch h
  sorted _ := Ascending.sorted_nil
  loaded _ h := nomatch h
  versions _ _ _ h := nomatch h
  whole _ _ h := nomatch h
  nothing _ _ _ := ⟨rfl, rfl⟩
  metadata _ _ _ h := nomatch h

theorem Sound.of_knowledge {memo memo' : IndexMemo} (h : Sound x t memo)
    (he : knowledge memo' = knowledge memo) : Sound x t memo' := by
  obtain ⟨categories, packages, versions, metadata, diagnostics⟩ := memo'
  simp only [knowledge, IndexMemo.mk.injEq] at he
  obtain ⟨rfl, rfl, rfl, rfl, -⟩ := he
  exact ⟨h.categories, h.known, h.sorted, h.loaded, h.versions, h.whole, h.nothing, h.metadata⟩

/-- Known categories are the listed ones. -/
theorem Sound.isCategory {memo : IndexMemo} (h : Sound x t memo) {table : Table Category Bool}
    (htable : memo.categories = some table) (c : Category) :
    x.isCategory t c = .ok (table.contains c) := by
  obtain ⟨found, hfound, hkeys⟩ := h.categories table htable
  unfold Index.isCategory
  rw [hfound, Table.contains_eq_of_keys_eq hkeys]
  rfl

/-- Before the categories are known, nothing is. -/
theorem Sound.not_isLoaded {memo : IndexMemo} (h : memo.categories = none) (c : Category) :
    ¬ memo.isLoaded c := by
  unfold IndexMemo.isLoaded
  rw [h]
  exact nofun

theorem Sound.setCategories {memo : IndexMemo} (h : Sound x t memo) (hnone : memo.categories = none)
    {found : Table Category Bool} (hfound : x.listedCategories t = .ok found) :
    Sound x t { memo with categories := some found } := by
  have hunloaded : ∀ c, ¬ IndexMemo.isLoaded { memo with categories := some found } c :=
    fun c => listedCategories_get?_ne hfound c
  refine ⟨?_, h.known, h.sorted, ?_, h.versions, ?_, ?_, h.metadata⟩
  · intro table htable
    cases htable
    exact ⟨found, hfound, rfl⟩
  · intro c hc
    exact absurd hc (hunloaded c)
  · intro _ n hn
    exact absurd hn (hunloaded n.category)
  · intro hi n _
    exact h.nothing hi n (Sound.not_isLoaded hnone n.category)

/-! ## Making things known -/

theorem needCategories_on {j : Journal IndexMemo} (h : Sound x t j.memo) :
    ∃ j', x.needCategories.on t j = ((x.listedCategories t).map fun _ => (), j') ∧
      Sound x t j'.memo ∧ j'.memo.packages = j.memo.packages ∧
      (∀ c, j'.memo.isLoaded c ↔ j.memo.isLoaded c) ∧
      ((x.listedCategories t).isOk → j'.memo.categories.isSome) := by
  unfold needCategories
  rw [Scan.on_bind_of_ok (Scan.on_memo t j)]
  cases hc : j.memo.categories with
  | some table =>
    obtain ⟨found, hfound, -⟩ := h.categories table hc
    refine ⟨j, ?_, h, rfl, fun _ => Iff.rfl, fun _ => by rw [hc]; rfl⟩
    rw [hfound]
    rfl
  | none =>
    obtain ⟨j', hj', hknow⟩ := (reads_scanCategories (x := x) (t := t)).on_eq j
    have hsound : Sound x t j'.memo := h.of_knowledge hknow
    have hnone := (congrArg IndexMemo.categories hknow).trans hc
    have hpackages := congrArg IndexMemo.packages hknow
    cases hfound : x.listedCategories t with
    | error e =>
      rw [hfound] at hj'
      refine ⟨j', ?_, hsound, hpackages, fun c => ?_, fun he => by cases he⟩
      · simp only [Option.isNone_none, ↓reduceIte]
        rw [Scan.on_bind_of_error hj']
        rfl
      · exact iff_of_false (Sound.not_isLoaded hnone c) (Sound.not_isLoaded hc c)
    | ok found =>
      rw [hfound] at hj'
      refine ⟨{ j' with memo := { j'.memo with categories := some found } }, ?_,
        hsound.setCategories hnone hfound, hpackages, fun c => ?_, fun _ => rfl⟩
      · simp only [Option.isNone_none, ↓reduceIte]
        rw [Scan.on_bind_of_ok hj', Scan.on_modifyMemo]
        rfl
      · exact iff_of_false (listedCategories_get?_ne hfound c) (Sound.not_isLoaded hc c)

/-- Adding the listed packages of a category to those that are known, and in an installed-package
database their versions, makes the category loaded. -/
theorem Sound.load {memo memo' : IndexMemo} (h : Sound x t memo) {c : Category}
    {ps : List PackageName} (hc : x.isCategory t c = .ok true)
    (hps : x.listedPackages t c = .ok ps)
    (hcategories : memo'.categories.map Table.keys = memo.categories.map Table.keys)
    (hloaded : ∀ c', memo'.isLoaded c' ↔ c' = c ∨ memo.isLoaded c')
    (hpackages : ∀ c', memo'.packagesOf c' =
      if c' = c then ps.foldl (fun known p => Ascending.insert p known) (memo.packagesOf c')
      else memo.packagesOf c')
    (htree : x.layout = .tree → memo'.versions = memo.versions)
    (hinstalled : x.layout = .installed → ∀ n : QualifiedName,
      if n.category = c then x.listedVersions t n = .ok (memo'.versionsOf n)
      else memo'.versionsOf n = memo.versionsOf n)
    (hmetadata : memo'.metadata = memo.metadata) : Sound x t memo' := by
  have hmem : ∀ c' p, p ∈ memo'.packagesOf c' ↔ c' = c ∧ p ∈ ps ∨ p ∈ memo.packagesOf c' := by
    intro c' p
    rw [hpackages]
    by_cases hc' : c' = c
    · rw [if_pos hc', Ascending.mem_foldl_insert]
      simp [hc']
    · rw [if_neg hc']
      simp [hc']
  refine ⟨?_, ?_, ?_, ?_, ?_, ?_, ?_, by rw [hmetadata]; exact h.metadata⟩
  · intro table htable
    rw [htable] at hcategories
    cases hold : memo.categories with
    | none => rw [hold] at hcategories; cases hcategories
    | some old =>
      obtain ⟨found, hfound, hkeys⟩ := h.categories old hold
      rw [hold] at hcategories
      exact ⟨found, hfound, (Option.some.inj hcategories).trans hkeys⟩
  · intro n hn
    rcases (hmem _ _).1 hn with ⟨hnc, hn⟩ | hn
    · subst hnc
      exact holds_of_mem_listedPackages hc hps hn
    · exact h.known n hn
  · intro c'
    rw [hpackages]
    by_cases hc' : c' = c
    · rw [if_pos hc']
      exact Ascending.sorted_foldl_insert ps (h.sorted c')
    · rw [if_neg hc']
      exact h.sorted c'
  · intro c' hl
    rcases (hloaded c').1 hl with rfl | hl
    · exact ⟨ps, hps, fun p hp => (hmem _ p).2 (Or.inl ⟨rfl, hp⟩)⟩
    · obtain ⟨ps', hps', hknown⟩ := h.loaded c' hl
      exact ⟨ps', hps', fun p hp => (hmem _ p).2 (Or.inr (hknown p hp))⟩
  · intro hlayout
    rw [htree hlayout]
    exact h.versions hlayout
  · intro hlayout n hl
    have hn := hinstalled hlayout n
    by_cases hnc : n.category = c
    · rw [if_pos hnc] at hn
      exact hn
    · rw [if_neg hnc] at hn
      rw [hn]
      exact h.whole hlayout n (((hloaded _).1 hl).resolve_left hnc)
  · intro hlayout n hl
    rw [hloaded, not_or] at hl
    have hn := hinstalled hlayout n
    rw [if_neg hl.1] at hn
    rw [hn, hpackages, if_neg hl.1]
    exact h.nothing hlayout n hl.2

theorem addInstalledPackages_on (c : Category) (dirs : List (String × String))
    (found : List PackageName) (j : Journal IndexMemo) :
    ∃ j', (dirs.foldlM (addInstalledPackage c) found).on t j =
        (.ok ((readings dirs).foldl (fun found r => Ascending.insert r.1 found) found), j') ∧
      knowledge j'.memo =
        (readings dirs).foldl (fun memo r => memo.addVersion ⟨c, r.1⟩ r.2) (knowledge j.memo) := by
  induction dirs generalizing found j with
  | nil => exact ⟨j, rfl, rfl⟩
  | cons entry dirs ih =>
    rw [List.foldlM_cons]
    unfold addInstalledPackage readings
    rw [List.filterMap_cons]
    cases splitVersioned entry.1 with
    | ok reading =>
      obtain ⟨p, v⟩ := reading
      obtain ⟨j', hj', hknow⟩ := ih (Ascending.insert p found)
        { j with memo := j.memo.addVersion ⟨c, p⟩ v }
      exact ⟨j', hj', hknow⟩
    | error e =>
      obtain ⟨j₁, hj₁, hknow₁⟩ := (reads_skip (t := t) entry.2 e).on_eq j
      obtain ⟨j', hj', hknow⟩ := ih found j₁
      refine ⟨j', (Scan.on_bind_of_ok (Scan.on_bind_of_ok hj₁ _) _).trans hj', ?_⟩
      rw [hknow, hknow₁]
      rfl

/-- The packages that were found join those that were known of a category; no others do. -/
def Joined (found : Except Error (List PackageName)) (c : Category) (memo memo' : IndexMemo) :
    Prop :=
  ∀ c', memo'.packagesOf c' = if c' = c then
    (found.toOption.getD []).foldl (fun known p => Ascending.insert p known) (memo.packagesOf c')
    else memo.packagesOf c'

theorem joined_error {e : Error} {c : Category} {memo memo' : IndexMemo}
    (h : memo'.packages = memo.packages) : Joined (.error e) c memo memo' := by
  intro c'
  unfold IndexMemo.packagesOf
  rw [h]
  simp [Except.toOption]

theorem joined_nil (c : Category) (memo : IndexMemo) : Joined (.ok []) c memo memo := by
  intro c'
  simp [Except.toOption]

theorem Joined.of_packages_eq {found : Except Error (List PackageName)} {c : Category}
    {memo memo' scanned : IndexMemo} (h : Joined found c scanned memo')
    (hs : scanned.packages = memo.packages) : Joined found c memo memo' := by
  have hknown : ∀ c', scanned.packagesOf c' = memo.packagesOf c' := fun c' => by
    unfold IndexMemo.packagesOf
    rw [hs]
  intro c'
  rw [h c', hknown]

theorem Joined.packagesOf {ps : List PackageName} {c : Category} {memo memo' : IndexMemo}
    (h : Joined (.ok ps) c memo memo') : memo'.packagesOf c =
      ps.foldl (fun known p => Ascending.insert p known) (memo.packagesOf c) := by
  rw [h c, if_pos rfl]
  rfl

theorem Joined.mem {found : Except Error (List PackageName)} {c c' : Category}
    {memo memo' : IndexMemo} (h : Joined found c memo memo') {p : PackageName}
    (hp : p ∈ memo'.packagesOf c') :
    p ∈ memo.packagesOf c' ∨ c' = c ∧ ∃ ps, found = .ok ps ∧ p ∈ ps := by
  rw [h c'] at hp
  by_cases hc : c' = c
  · rw [if_pos hc, Ascending.mem_foldl_insert] at hp
    rcases hp with hp | hp
    · cases found with
      | error e => cases hp
      | ok ps => exact Or.inr ⟨hc, ps, rfl, hp⟩
    · exact Or.inl hp
  · rw [if_neg hc] at hp
    exact Or.inl hp

/-- What looking into the directory of a category changes: in an installed-package database the
versions of its packages become known. -/
structure Scanned (x : Index) (t : FileTree) (c : Category) (memo memo' : IndexMemo) : Prop where
  categories : memo'.categories = memo.categories
  packages : memo'.packages = memo.packages
  metadata : memo'.metadata = memo.metadata
  tree : x.layout = .tree → memo'.versions = memo.versions
  installed : x.layout = .installed → ∀ n : QualifiedName,
    if n.category = c then memo.versionsOf n = [] → x.listedVersions t n = .ok (memo'.versionsOf n)
    else memo'.versionsOf n = memo.versionsOf n

theorem scanned_of_knowledge {c : Category} {memo memo' : IndexMemo} (hlayout : x.layout = .tree)
    (h : knowledge memo' = knowledge memo) : Scanned x t c memo memo' := by
  obtain ⟨hcategories, hpackages, hversions, hmetadata, -⟩ := IndexMemo.ext_iff.1 h
  refine ⟨hcategories, hpackages, hmetadata, fun _ => hversions, fun hi => ?_⟩
  rw [hlayout] at hi
  cases hi

theorem scanned_of_readings {c : Category} {dirs : List (String × String)} {memo memo' : IndexMemo}
    (hlayout : x.layout = .installed) (hdirs : subdirectoriesIn t (x.categoryDir c) = .ok dirs)
    (h : knowledge memo' = (readings dirs).foldl (fun memo r => memo.addVersion ⟨c, r.1⟩ r.2)
      (knowledge memo)) : Scanned x t c memo memo' := by
  obtain ⟨hversions, hrest⟩ := IndexMemo.foldl_addVersion (readings dirs) c (knowledge memo)
  rw [← h] at hversions hrest
  obtain ⟨hcategories, hpackages, -, hmetadata, -⟩ := IndexMemo.ext_iff.1 hrest
  refine ⟨hcategories, hpackages, hmetadata, ?_, fun _ n => ?_⟩
  · intro ht
    rw [hlayout] at ht
    cases ht
  · have hn : memo'.versionsOf n = _ := hversions n
    by_cases hc : n.category = c
    · rw [if_pos hc] at hn ⊢
      intro hempty
      unfold listedVersions
      rw [hlayout, hc, hdirs, hn, show (knowledge memo).versionsOf n = [] from hempty]
      rfl
    · rw [if_neg hc] at hn ⊢
      exact hn

/-- The packages that the directories of a category hold are found. -/
theorem scanPackages_on (c : Category) {dirs : List (String × String)} {ps : List PackageName}
    (hdirs : subdirectoriesIn t (x.categoryDir c) = .ok dirs)
    (hps : x.listedPackages t c = .ok ps) (next : List PackageName → Scan IndexMemo Unit)
    (j : Journal IndexMemo) :
    ∃ j', (match x.layout with
        | .tree => dirs.foldlM x.addTreePackage [] >>= next
        | .installed => dirs.foldlM (addInstalledPackage c) [] >>= next).on t j =
        (next ps).on t j' ∧
      Scanned x t c j.memo j'.memo := by
  unfold listedPackages at hps
  rw [hdirs] at hps
  cases hlayout : x.layout with
  | tree =>
    rw [hlayout] at hps
    have hread := Scan.Reads.foldlM dirs (fun found entry _ =>
      reads_addTreePackage (x := x) (t := t) found entry) []
    rw [show dirs.foldlM (x.withTreePackage t) [] = .ok ps from hps] at hread
    obtain ⟨j', hj', hknow⟩ := hread.on_eq j
    exact ⟨j', Scan.on_bind_of_ok hj' next, scanned_of_knowledge hlayout hknow⟩
  | installed =>
    rw [hlayout] at hps
    cases hps
    obtain ⟨j', hj', hknow⟩ := addInstalledPackages_on (t := t) c dirs [] j
    refine ⟨j', Scan.on_bind_of_ok ?_ next, scanned_of_readings hlayout hdirs hknow⟩
    rw [Ascending.ofList, List.foldl_map]
    exact hj'

/-- What looking into the directory of a category finds is added to a sound memo. -/
theorem Sound.load_scanned {memo scanned : IndexMemo} (h : Sound x t memo) {c : Category}
    {ps : List PackageName} {table : Table Category Bool} (htable : memo.categories = some table)
    (hflag : table.get? c = some false) (hps : x.listedPackages t c = .ok ps)
    (hs : Scanned x t c memo scanned) :
    let memo' := (ps.foldl (fun m p => m.addPackage ⟨c, p⟩) scanned).setLoaded c
    Sound x t memo' ∧ memo'.isLoaded c ∧ Joined (.ok ps) c memo memo' := by
  intro memo'
  obtain ⟨hpackages, hrest⟩ := IndexMemo.foldl_addPackage ps c scanned
  obtain ⟨hcategories, -, hversions, hmetadata, -⟩ := IndexMemo.ext_iff.1 hrest
  have hcategories : (ps.foldl (fun m p => m.addPackage ⟨c, p⟩) scanned).categories = some table :=
    hcategories.trans (hs.categories.trans htable)
  have hpackagesOf : ∀ c', scanned.packagesOf c' = memo.packagesOf c' := fun c' => by
    unfold IndexMemo.packagesOf
    rw [hs.packages]
  have hversions : memo'.versions = scanned.versions := hversions
  have hversionsOf : ∀ n, memo'.versionsOf n = scanned.versionsOf n := fun n => by
    unfold IndexMemo.versionsOf
    rw [hversions]
  have hnotLoaded : ¬ memo.isLoaded c := by
    unfold IndexMemo.isLoaded
    rw [htable, Option.bind_some, hflag]
    nofun
  have hloaded : ∀ c', memo'.isLoaded c' ↔ c' = c ∨ memo.isLoaded c' := fun c' => by
    rw [IndexMemo.isLoaded_setLoaded_iff hcategories]
    unfold IndexMemo.isLoaded
    rw [hcategories, htable]
  have hjoined : Joined (.ok ps) c memo memo' := fun c' => by
    rw [show memo'.packagesOf c' = _ from hpackages c', hpackagesOf]
    rfl
  refine ⟨?_, (hloaded c).2 (Or.inl rfl), hjoined⟩
  · have hcategory := h.isCategory htable c
    rw [Table.contains, hflag] at hcategory
    refine h.load hcategory hps ?_ hloaded hjoined ?_ ?_ ?_
    · rw [show memo'.categories = some (table.insert c true) by
        simp only [memo', IndexMemo.setLoaded, hcategories, Option.map_some], htable]
      rw [Option.map_some, Option.map_some, Table.keys_insert,
        if_pos ((Table.contains_iff _ _).1 (by rw [Table.contains, hflag]; rfl))]
    · intro hlayout
      rw [hversions, hs.tree hlayout]
    · intro hlayout n
      have hn := hs.installed hlayout n
      rw [hversionsOf]
      by_cases hc : n.category = c
      · rw [if_pos hc] at hn ⊢
        exact hn (h.nothing hlayout n (hc ▸ hnotLoaded)).2
      · rw [if_neg hc] at hn ⊢
        exact hn
    · exact hmetadata.trans hs.metadata

theorem Sound.isLoaded_iff {memo : IndexMemo} {table : Table Category Bool}
    (htable : memo.categories = some table) (c : Category) :
    memo.isLoaded c ↔ table.get? c = some true := by
  unfold IndexMemo.isLoaded
  rw [htable]
  rfl

/-- What `needPackages` does for a category whose packages are not all known. -/
def loadPackages (x : Index) (c : Category) : Scan IndexMemo Unit := do
  let dirs ← subdirectories (x.categoryDir c)
  let found ← match x.layout with
    | .tree => dirs.foldlM x.addTreePackage []
    | .installed => dirs.foldlM (addInstalledPackage c) []
  Scan.modifyMemo fun memo => (found.foldl (fun m p => m.addPackage ⟨c, p⟩) memo).setLoaded c

theorem needPackages_eq (c : Category) : x.needPackages c = (do
    x.needCategories
    if (← Scan.memo).categories.bind (·.get? c) = some false then x.loadPackages c) := rfl

/-- The packages that are listed join those that were known, and then all are known. -/
theorem loadPackages_on {j : Journal IndexMemo} (h : Sound x t j.memo) {c : Category}
    {table : Table Category Bool} (htable : j.memo.categories = some table)
    (hflag : table.get? c = some false) :
    ∃ j', (x.loadPackages c).on t j = ((x.listedPackages t c).map fun _ => (), j') ∧
      Sound x t j'.memo ∧ ((x.listedPackages t c).isOk → j'.memo.isLoaded c) ∧
      Joined (x.listedPackages t c) c j.memo j'.memo := by
  obtain ⟨j₁, hj₁, hknow⟩ := (reads_subdirectories (t := t) (x.categoryDir c)).on_eq j
  have hs₁ := h.of_knowledge hknow
  have hpackages := congrArg IndexMemo.packages hknow
  unfold loadPackages
  cases hdirs : subdirectoriesIn t (x.categoryDir c) with
  | error e =>
    rw [hdirs] at hj₁
    rw [listedPackages_error hdirs, Scan.on_bind_of_error hj₁]
    exact ⟨j₁, rfl, hs₁, nofun, joined_error hpackages⟩
  | ok dirs =>
    rw [hdirs] at hj₁
    obtain ⟨ps, hps, -⟩ := listedPackages_ok (x := x) hdirs
    obtain ⟨j₂, hj₂, hscanned⟩ := scanPackages_on c hdirs hps (fun found =>
      Scan.modifyMemo fun memo =>
        (found.foldl (fun m p => m.addPackage ⟨c, p⟩) memo).setLoaded c) j₁
    have htable₁ := (congrArg (fun m : IndexMemo => m.categories) hknow).trans htable
    obtain ⟨hs₂, hloaded, hjoined⟩ := hs₁.load_scanned htable₁ hflag hps hscanned
    rw [Scan.on_modifyMemo] at hj₂
    rw [hps, Scan.on_bind_of_ok hj₁]
    exact ⟨_, hj₂, hs₂, fun _ => hloaded, hjoined.of_packages_eq hpackages⟩

/-- Once a category is loaded, its listed packages are among those that are known. -/
theorem Sound.joined {memo : IndexMemo} (h : Sound x t memo) {c : Category}
    (hl : memo.isLoaded c) {ps : List PackageName} (hps : x.listedPackages t c = .ok ps) :
    Joined (.ok ps) c memo memo := by
  obtain ⟨ps', hps', hmem⟩ := h.loaded c hl
  rw [hps] at hps'
  cases hps'
  intro c'
  by_cases hc : c' = c
  · rw [if_pos hc, hc]
    refine ((Ascending.sorted_foldl_insert ps (h.sorted c)).eq_of_mem_iff (h.sorted c) fun p => ?_).symm
    rw [Ascending.mem_foldl_insert]
    exact ⟨fun hp => hp.elim (hmem p) id, Or.inr⟩
  · rw [if_neg hc]

/-- The listed packages of a category join those that were known. -/
theorem needPackages_on {j : Journal IndexMemo} (h : Sound x t j.memo) (c : Category) :
    ∃ j', (x.needPackages c).on t j = ((x.packagesIn t c).map fun _ => (), j') ∧
      Sound x t j'.memo ∧ Joined (x.packagesIn t c) c j.memo j'.memo ∧
      ((x.packagesIn t c).isOk → x.isCategory t c = .ok true → j'.memo.isLoaded c) := by
  obtain ⟨j₁, hj₁, hs₁, hpackages, -, hsome⟩ := needCategories_on h
  rw [needPackages_eq]
  cases hl : x.listedCategories t with
  | error e =>
    rw [hl] at hj₁
    rw [packagesIn_of_error hl, Scan.on_bind_of_error hj₁]
    exact ⟨j₁, rfl, hs₁, joined_error hpackages, nofun⟩
  | ok found =>
    rw [hl] at hj₁ hsome
    obtain ⟨table, htable⟩ := Option.isSome_iff_exists.1 (hsome rfl)
    have hcategory := hs₁.isCategory htable c
    rw [Scan.on_bind_of_ok hj₁, Scan.on_bind_of_ok (Scan.on_memo t j₁), htable, Option.bind_some,
      packagesIn_eq hcategory]
    cases hflag : table.get? c with
    | none =>
      rw [Table.contains, hflag] at hcategory ⊢
      refine ⟨j₁, rfl, hs₁, (joined_nil c j₁.memo).of_packages_eq hpackages, fun _ htrue => ?_⟩
      rw [hcategory] at htrue
      cases htrue
    | some flag =>
      rw [Table.contains, hflag, Option.isSome_some, if_pos rfl]
      cases flag with
      | true =>
        have hloaded := (Sound.isLoaded_iff htable c).2 hflag
        obtain ⟨ps, hps, -⟩ := hs₁.loaded c hloaded
        rw [hps]
        exact ⟨j₁, rfl, hs₁, (hs₁.joined hloaded hps).of_packages_eq hpackages, fun _ _ => hloaded⟩
      | false =>
        obtain ⟨j₂, hj₂, hs₂, hloaded, hjoined⟩ := loadPackages_on hs₁ htable hflag
        rw [if_pos rfl, hj₂]
        exact ⟨j₂, rfl, hs₂, hjoined.of_packages_eq hpackages, fun hok _ => hloaded hok⟩

theorem Sound.isCategory_of_isLoaded {memo : IndexMemo} (h : Sound x t memo) {c : Category}
    (hl : memo.isLoaded c) : x.isCategory t c = .ok true := by
  cases htable : memo.categories with
  | none => exact absurd hl (Sound.not_isLoaded htable c)
  | some table =>
    rw [Sound.isLoaded_iff htable] at hl
    rw [h.isCategory htable, Table.contains, hl]
    rfl

theorem Sound.holds_of_knows {memo : IndexMemo} (h : Sound x t memo) {n : QualifiedName}
    (hn : memo.knowsPackage n = true) : x.holds t n = .ok true :=
  h.known n (of_decide_eq_true hn)

/-- In a loaded category what is not known does not exist, bare directories apart. -/
theorem Sound.holds_of_isLoaded {memo : IndexMemo} (h : Sound x t memo) {n : QualifiedName}
    (hl : memo.isLoaded n.category) (hc : x.isCategory t n.category = .ok true)
    (hbare : ¬ x.IsBare t n) : x.holds t n = .ok (memo.knowsPackage n) := by
  cases hknows : memo.knowsPackage n with
  | true => exact h.holds_of_knows hknows
  | false =>
    obtain ⟨ps, hps, hmem⟩ := h.loaded n.category hl
    have hfalse : x.holds t n ≠ .ok true := by
      intro htrue
      have := hmem _ (mem_listedPackages_of_holds htrue hbare hps)
      rw [IndexMemo.knowsPackage, decide_eq_true this] at hknows
      cases hknows
    cases hlayout : x.layout with
    | tree =>
      rw [holds_tree hc hlayout] at hfalse ⊢
      cases hd : t.isDirectory (x.packageDir n) with
      | true => exact absurd (congrArg Except.ok hd) hfalse
      | false => rfl
    | installed =>
      rw [holds_installed hc hlayout, hps] at hfalse ⊢
      cases hd : decide (n.package ∈ ps) with
      | true => exact absurd (congrArg Except.ok hd) hfalse
      | false => exact congrArg Except.ok hd

/-- A package whose directory was found is added to a sound memo. -/
theorem Sound.addPackage {memo : IndexMemo} (h : Sound x t memo) {n : QualifiedName}
    (hn : x.holds t n = .ok true) (hlayout : x.layout = .tree) :
    Sound x t (memo.addPackage n) := by
  have hnot : x.layout ≠ .installed := by
    rw [hlayout]
    nofun
  refine ⟨h.categories, fun n' hn' => ?_, fun c => ?_, fun c hc => ?_, h.versions,
    fun hi => absurd hi hnot, fun hi => absurd hi hnot, h.metadata⟩
  · rcases IndexMemo.mem_packagesOf_addPackage.1 hn' with rfl | hp
    · exact hn
    · exact h.known n' hp
  · rw [IndexMemo.packagesOf_addPackage]
    by_cases hc : c = n.category
    · rw [if_pos hc]
      exact Ascending.sorted_insert (h.sorted c)
    · rw [if_neg hc]
      exact h.sorted c
  · obtain ⟨ps, hps, hmem⟩ := h.loaded c hc
    exact ⟨ps, hps, fun p hp => IndexMemo.mem_packagesOf_addPackage.2 (Or.inr (hmem p hp))⟩

/-- What `lookupPackage` does for a package that is not known, in a category whose packages are not
all known. -/
def probePackage (x : Index) (n : QualifiedName) : Scan IndexMemo Bool := do
  match x.layout with
  | .tree =>
    let present ← Scan.isDirectory (x.packageDir n)
    if present then Scan.modifyMemo (·.addPackage n)
    return present
  | .installed => do
    x.needPackages n.category
    return (← Scan.memo).knowsPackage n

theorem lookupPackage_eq (n : QualifiedName) : x.lookupPackage n = (do
    x.needCategories
    let memo ← Scan.memo
    match memo.categories.bind (·.get? n.category) with
    | none => return false
    | some loaded =>
      if loaded || memo.knowsPackage n then return memo.knowsPackage n
      x.probePackage n) := rfl

theorem probePackage_on {j : Journal IndexMemo} (h : Sound x t j.memo) {n : QualifiedName}
    (hc : x.isCategory t n.category = .ok true) (hl : ¬ j.memo.isLoaded n.category) :
    ∃ j', (x.probePackage n).on t j = (x.holds t n, j') ∧ Sound x t j'.memo ∧
      (x.holds t n = .ok true → j'.memo.knowsPackage n = true) ∧
      (x.layout = .tree → ∀ c, j'.memo.isLoaded c ↔ j.memo.isLoaded c) := by
  unfold probePackage
  cases hlayout : x.layout with
  | tree =>
    simp only
    rw [holds_tree hc hlayout, Scan.on_bind_of_ok (Scan.on_isDirectory (x.packageDir n) t j)]
    cases hd : t.isDirectory (x.packageDir n) with
    | true =>
      refine ⟨{ j with memo := j.memo.addPackage n }, rfl, ?_, fun _ => ?_, fun _ _ => Iff.rfl⟩
      · exact h.addPackage (by rw [holds_tree hc hlayout, hd]) hlayout
      · exact decide_eq_true (IndexMemo.mem_packagesOf_addPackage.2 (Or.inl rfl))
    | false => exact ⟨j, rfl, h, nofun, fun _ _ => Iff.rfl⟩
  | installed =>
    have hempty := (h.nothing hlayout n hl).1
    obtain ⟨j', hj', hs', hjoined, -⟩ := needPackages_on h n.category
    rw [packagesIn_eq hc, if_pos rfl] at hj' hjoined
    simp only
    rw [holds_installed hc hlayout]
    cases hps : x.listedPackages t n.category with
    | error e =>
      rw [hps] at hj'
      rw [Scan.on_bind_of_error hj']
      exact ⟨j', rfl, hs', nofun, nofun⟩
    | ok ps =>
      rw [hps] at hj' hjoined
      have hknown : j'.memo.knowsPackage n = decide (n.package ∈ ps) := by
        unfold IndexMemo.knowsPackage
        rw [hjoined.packagesOf, hempty, decide_eq_decide, Ascending.mem_foldl_insert]
        simp
      rw [Scan.on_bind_of_ok hj', Scan.on_bind_of_ok (Scan.on_memo t j'), hknown]
      exact ⟨j', rfl, hs', fun htrue => hknown.trans (Except.ok.inj htrue), nofun⟩

/-- A package is found if it exists, and then it is known. -/
theorem lookupPackage_on {j : Journal IndexMemo} (h : Sound x t j.memo) (n : QualifiedName)
    (hbare : j.memo.isLoaded n.category → ¬ x.IsBare t n) :
    ∃ j', (x.lookupPackage n).on t j = (x.holds t n, j') ∧ Sound x t j'.memo ∧
      (x.holds t n = .ok true → j'.memo.knowsPackage n = true) ∧
      (x.layout = .tree → ∀ c, j'.memo.isLoaded c ↔ j.memo.isLoaded c) := by
  obtain ⟨j₁, hj₁, hs₁, -, hloaded, hsome⟩ := needCategories_on h
  rw [lookupPackage_eq]
  cases hl : x.listedCategories t with
  | error e =>
    rw [hl] at hj₁
    rw [holds_of_error hl, Scan.on_bind_of_error hj₁]
    exact ⟨j₁, rfl, hs₁, nofun, fun _ => hloaded⟩
  | ok found =>
    rw [hl] at hj₁ hsome
    obtain ⟨table, htable⟩ := Option.isSome_iff_exists.1 (hsome rfl)
    have hcategory := hs₁.isCategory htable n.category
    rw [Scan.on_bind_of_ok hj₁, Scan.on_bind_of_ok (Scan.on_memo t j₁), htable, Option.bind_some]
    cases hflag : table.get? n.category with
    | none =>
      rw [Table.contains, hflag] at hcategory
      rw [holds_of_not_isCategory hcategory]
      exact ⟨j₁, rfl, hs₁, nofun, fun _ => hloaded⟩
    | some flag =>
      rw [Table.contains, hflag, Option.isSome_some] at hcategory
      cases flag with
      | true =>
        have hl₁ := (Sound.isLoaded_iff htable n.category).2 hflag
        have hholds := hs₁.holds_of_isLoaded hl₁ hcategory (hbare ((hloaded _).1 hl₁))
        rw [hholds]
        exact ⟨j₁, rfl, hs₁, Except.ok.inj, fun _ => hloaded⟩
      | false =>
        cases hknows : j₁.memo.knowsPackage n with
        | true =>
          rw [hs₁.holds_of_knows hknows]
          exact ⟨j₁, rfl, hs₁, fun _ => hknows, fun _ => hloaded⟩
        | false =>
          have hl₁ : ¬ j₁.memo.isLoaded n.category := by
            rw [Sound.isLoaded_iff htable, hflag]
            nofun
          obtain ⟨j₂, hj₂, hs₂, hknows₂, hloaded₂⟩ := probePackage_on hs₁ hcategory hl₁
          exact ⟨j₂, hj₂, hs₂, hknows₂, fun ht c => (hloaded₂ ht c).trans (hloaded c)⟩

/-- Once the packages of a category are known, nothing is looked for. -/
theorem lookupPackage_of_isLoaded {j : Journal IndexMemo} {n : QualifiedName}
    (hl : j.memo.isLoaded n.category) :
    (x.lookupPackage n).on t j = (.ok (j.memo.knowsPackage n), j) := by
  obtain ⟨table, htable⟩ : ∃ table, j.memo.categories = some table := by
    cases hc : j.memo.categories with
    | none => exact absurd hl (Sound.not_isLoaded hc n.category)
    | some table => exact ⟨table, rfl⟩
  have hneed : x.needCategories.on t j = (.ok (), j) := by
    unfold needCategories
    rw [Scan.on_bind_of_ok (Scan.on_memo t j), htable]
    rfl
  rw [lookupPackage_eq, Scan.on_bind_of_ok hneed, Scan.on_bind_of_ok (Scan.on_memo t j), htable,
    Option.bind_some, (Sound.isLoaded_iff htable n.category).1 hl]
  rfl

/-- A package is found if it exists, unless a bare directory is passed over because the packages of
the category are already known. -/
theorem lookupPackage_finds {j : Journal IndexMemo} (h : Sound x t j.memo) (n : QualifiedName) :
    ∃ r j', (x.lookupPackage n).on t j = (r, j') ∧ Sound x t j'.memo ∧
      (r = .ok true → j'.memo.knowsPackage n = true) ∧
      (r = x.holds t n ∨ r = .ok false ∧ x.IsBare t n) := by
  by_cases hl : j.memo.isLoaded n.category
  · refine ⟨_, j, lookupPackage_of_isLoaded hl, h, Except.ok.inj, ?_⟩
    by_cases hbare : x.IsBare t n
    · cases hknows : j.memo.knowsPackage n with
      | true => exact Or.inl (h.holds_of_knows hknows).symm
      | false => exact Or.inr ⟨rfl, hbare⟩
    · exact Or.inl (h.holds_of_isLoaded hl (h.isCategory_of_isLoaded hl) hbare).symm
  · obtain ⟨j', hj', hs, hknows, -⟩ := lookupPackage_on h n fun hl' => absurd hl' hl
    exact ⟨_, j', hj', hs, hknows, Or.inl rfl⟩

/-! ## Versions -/

theorem Sound.isLoaded_of_knows {memo : IndexMemo} (h : Sound x t memo)
    (hlayout : x.layout = .installed) {n : QualifiedName} (hn : memo.knowsPackage n = true) :
    memo.isLoaded n.category := by
  by_contra hl
  unfold IndexMemo.knowsPackage at hn
  rw [(h.nothing hlayout n hl).1] at hn
  cases hn

/-- Where there are no versions, none are remembered. -/
theorem Sound.versionsOf_of_versionsIn {memo : IndexMemo} (h : Sound x t memo) {n : QualifiedName}
    (hn : x.versionsIn t n = .ok []) : memo.versionsOf n = [] := by
  cases hlayout : x.layout with
  | tree =>
    unfold IndexMemo.versionsOf
    cases hv : memo.versions.get? n with
    | none => rfl
    | some vs =>
      have := h.versions hlayout n vs hv
      rw [hn] at this
      cases this
      rfl
  | installed =>
    by_cases hl : memo.isLoaded n.category
    · have hwhole := h.whole hlayout n hl
      obtain ⟨ps, hps, -⟩ := h.loaded n.category hl
      have hholds : x.holds t n = .ok (decide (n.package ∈ ps)) := by
        rw [holds_installed (h.isCategory_of_isLoaded hl) hlayout, hps]
        rfl
      rw [versionsIn_of_holds hholds] at hn
      by_cases hp : n.package ∈ ps
      · rw [decide_eq_true hp, if_pos rfl, hwhole] at hn
        exact Except.ok.inj hn
      · rw [listedVersions_of_notMem hlayout hps hp] at hwhole
        exact (Except.ok.inj hwhole).symm
    · exact (h.nothing hlayout n hl).2

theorem Sound.insertVersions {memo : IndexMemo} (h : Sound x t memo) {n : QualifiedName}
    {vs : List Version} (hlayout : x.layout = .tree) (hvs : x.versionsIn t n = .ok vs) :
    Sound x t { memo with versions := memo.versions.insert n vs } := by
  refine ⟨h.categories, h.known, h.sorted, h.loaded, fun _ n' vs' hvs' => ?_, ?_, ?_, h.metadata⟩
  · rw [Table.get?_insert] at hvs'
    by_cases hn : n' = n
    · rw [if_pos hn] at hvs'
      cases hvs'
      rw [hn]
      exact hvs
    · rw [if_neg hn] at hvs'
      exact h.versions hlayout n' vs' hvs'
  · intro hi
    rw [hlayout] at hi
    cases hi
  · intro hi
    rw [hlayout] at hi
    cases hi

/-- What `needVersions` does in a tree for a package that was found. -/
def readVersions (x : Index) (n : QualifiedName) : Scan IndexMemo Unit := do
  let found ← (← files (x.packageDir n)).foldlM (x.addEntryFile n.package) []
  Scan.modifyMemo fun memo => { memo with versions := memo.versions.insert n found }

theorem needVersions_eq (n : QualifiedName) : x.needVersions n = (do
    match x.layout with
    | .tree =>
      if (← Scan.memo).versions.contains n then return
      if ← x.lookupPackage n then x.readVersions n
    | .installed => discard (x.lookupPackage n)) := rfl

/-- In a tree the entry files of a package give its versions. -/
theorem readVersions_on {j : Journal IndexMemo} (h : Sound x t j.memo) {n : QualifiedName}
    (hlayout : x.layout = .tree) (hholds : x.holds t n = .ok true) :
    ∃ vs j', x.versionsIn t n = .ok vs ∧ (x.readVersions n).on t j = (.ok (), j') ∧
      Sound x t j'.memo ∧ j'.memo.versionsOf n = vs := by
  obtain ⟨entries, hentries⟩ := filesIn_of_isDirectory (isDirectory_of_holds hlayout hholds)
  have hvs : x.versionsIn t n = .ok (entries.foldl (x.withEntryFile n.package) []) := by
    rw [versionsIn_of_holds hholds, if_pos rfl, listedVersions, hlayout, hentries]
    rfl
  obtain ⟨j₁, hj₁, hknow₁⟩ := (reads_files (t := t) (x.packageDir n)).on_eq j
  obtain ⟨j₂, hj₂, hknow₂⟩ := (Scan.Reads.foldlM (t := t) entries
    (fun found entry _ => reads_addEntryFile (x := x) n.package found entry) []).on_eq j₁
  rw [hentries] at hj₁
  rw [Scan.foldlM_ok] at hj₂
  have hs₂ := (h.of_knowledge hknow₁).of_knowledge hknow₂
  have hrun : (x.readVersions n).on t j = _ :=
    (Scan.on_bind_of_ok hj₁ _).trans (Scan.on_bind_of_ok hj₂ _)
  rw [Scan.on_modifyMemo] at hrun
  refine ⟨_, _, hvs, hrun, hs₂.insertVersions hlayout hvs, ?_⟩
  unfold IndexMemo.versionsOf
  rw [Table.get?_insert, if_pos rfl]
  rfl

/-- The versions of a package become known. -/
theorem needVersions_on {j : Journal IndexMemo} (h : Sound x t j.memo) (n : QualifiedName) :
    ∃ j', (x.needVersions n).on t j = ((x.versionsIn t n).map fun _ => (), j') ∧
      Sound x t j'.memo ∧ ∀ vs, x.versionsIn t n = .ok vs → j'.memo.versionsOf n = vs := by
  obtain ⟨r, j₁, hj₁, hs₁, hknows, hr⟩ := lookupPackage_finds h n
  -- a bare directory has no versions, so that it makes no difference whether it is found
  have hnone : r = .ok false → x.versionsIn t n = .ok [] := by
    rintro rfl
    rcases hr with hr | ⟨-, hbare⟩
    · rw [versionsIn_of_holds hr.symm]
      rfl
    · exact hbare.versionsIn
  have herror : ∀ e, r = .error e → x.versionsIn t n = .error e := by
    rintro e rfl
    rcases hr with hr | ⟨hr, -⟩
    · exact versionsIn_of_error hr.symm
    · cases hr
  have htrue : r = .ok true → x.holds t n = .ok true := by
    rintro rfl
    rcases hr with hr | ⟨hr, -⟩
    · exact hr.symm
    · cases hr
  rw [needVersions_eq]
  cases hlayout : x.layout with
  | tree =>
    simp only
    rw [Scan.on_bind_of_ok (Scan.on_memo t j)]
    cases hv : j.memo.versions.get? n with
    | some vs =>
      have hvs := h.versions hlayout n vs hv
      rw [Table.contains, hv, hvs]
      refine ⟨j, rfl, h, fun vs' hvs' => ?_⟩
      cases hvs'
      unfold IndexMemo.versionsOf
      rw [hv]
      rfl
    | none =>
      rw [Table.contains, hv]
      simp only [Option.isSome_none, Bool.false_eq_true, ↓reduceIte]
      cases hresult : r with
      | error e =>
        rw [hresult] at hj₁
        rw [herror e hresult, Scan.on_bind_of_error hj₁]
        exact ⟨j₁, rfl, hs₁, nofun⟩
      | ok b =>
        rw [hresult] at hj₁
        rw [Scan.on_bind_of_ok hj₁]
        cases b with
        | false =>
          rw [hnone hresult]
          refine ⟨j₁, rfl, hs₁, fun vs hvs => ?_⟩
          cases hvs
          exact hs₁.versionsOf_of_versionsIn (hnone hresult)
        | true =>
          obtain ⟨vs, j₂, hvs, hj₂, hs₂, hall⟩ := readVersions_on hs₁ hlayout (htrue hresult)
          rw [if_pos rfl, hj₂, hvs]
          refine ⟨j₂, rfl, hs₂, fun vs' hvs' => ?_⟩
          cases hvs'
          exact hall
  | installed =>
    simp only
    rw [Scan.on_discard, hj₁]
    cases hresult : r with
    | error e =>
      rw [herror e hresult]
      exact ⟨j₁, rfl, hs₁, nofun⟩
    | ok b =>
      cases b with
      | false =>
        rw [hnone hresult]
        refine ⟨j₁, rfl, hs₁, fun vs hvs => ?_⟩
        cases hvs
        exact hs₁.versionsOf_of_versionsIn (hnone hresult)
      | true =>
        have hvs := hs₁.whole hlayout n (hs₁.isLoaded_of_knows hlayout (hknows hresult))
        rw [versionsIn_of_holds (htrue hresult), if_pos rfl, hvs]
        refine ⟨j₁, rfl, hs₁, fun vs' hvs' => ?_⟩
        cases hvs'
        rfl

end Index

end PackageCatalog
