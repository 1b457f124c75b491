import PackageCatalog.Proofs.Index.Memo

/-!
# Questions in any order

An index answers from what it remembers.  Its answers do not depend on what it was asked before if
and only if no directory of a tree is bare: named like a package of a listed category, but without
entry files.

    x.HistoryFree t ↔ ∀ n, ¬ x.IsBare t n                            (historyFree_iff)

A bare directory is a package for `hasPackage`, which looks for the directory alone, and none for
`packages`; the one that comes first decides what the other answers.
-/

namespace PackageCatalog.Index

open Scan (Keeps Reads Yields)

variable {x : Index} {t : FileTree}

/-! ## Answers from sound memos -/

theorem hasCategory_yields (c : Category) :
    Yields (Sound x t) (x.hasCategory c) t (x.isCategory t c) := by
  refine .of_on fun j h => ?_
  obtain ⟨j', hj', hs, -, -, hsome⟩ := needCategories_on h
  unfold hasCategory
  cases hl : x.listedCategories t with
  | error e =>
    rw [hl] at hj'
    refine ⟨j', ?_, hs⟩
    rw [Scan.on_bind_of_error hj', isCategory, hl]
    rfl
  | ok found =>
    rw [hl] at hj' hsome
    obtain ⟨table, htable⟩ := Option.isSome_iff_exists.1 (hsome rfl)
    refine ⟨j', ?_, hs⟩
    rw [Scan.on_bind_of_ok hj', Scan.on_bind_of_ok (Scan.on_memo t j'), hs.isCategory htable c,
      IndexMemo.hasCategory, htable]
    rfl

/-- Asking for the categories makes no packages known. -/
theorem categories_on {j : Journal IndexMemo} (h : Sound x t j.memo) :
    ∃ j', x.categories.on t j = (x.categoriesIn t, j') ∧ Sound x t j'.memo ∧
      j'.memo.packages = j.memo.packages ∧ ∀ c, j'.memo.isLoaded c ↔ j.memo.isLoaded c := by
  obtain ⟨j', hj', hs, hpackages, hloaded, hsome⟩ := needCategories_on h
  refine ⟨j', ?_, hs, hpackages, hloaded⟩
  unfold categories categoriesIn
  cases hl : x.listedCategories t with
  | error e =>
    rw [hl] at hj'
    rw [Scan.on_bind_of_error hj']
    rfl
  | ok found =>
    rw [hl] at hj' hsome
    obtain ⟨table, htable⟩ := Option.isSome_iff_exists.1 (hsome rfl)
    obtain ⟨found', hfound', hkeys⟩ := hs.categories table htable
    rw [hl] at hfound'
    cases hfound'
    rw [Scan.on_bind_of_ok hj', Scan.on_bind_of_ok (Scan.on_memo t j'), IndexMemo.categoryNames,
      htable, Option.map_some, hkeys]
    rfl

theorem categories_yields : Yields (Sound x t) x.categories t (x.categoriesIn t) := by
  refine .of_on fun j h => ?_
  obtain ⟨j', hj', hs, -⟩ := categories_on h
  exact ⟨j', hj', hs⟩

/-- The packages of a category are the listed ones and those that were known before. -/
theorem packages_on {j : Journal IndexMemo} (h : Sound x t j.memo) (c : Category) :
    ∃ j', Sound x t j'.memo ∧ Joined (x.packagesIn t c) c j.memo j'.memo ∧ (x.packages c).on t j =
      ((x.packagesIn t c).map fun ps => (ps.foldl (fun known p => Ascending.insert p known)
        (j.memo.packagesOf c)).map fun p => ⟨c, p⟩, j') := by
  obtain ⟨j', hj', hs, hjoined, -⟩ := needPackages_on h c
  refine ⟨j', hs, hjoined, ?_⟩
  unfold packages
  cases hps : x.packagesIn t c with
  | error e =>
    rw [hps] at hj'
    rw [Scan.on_bind_of_error hj']
    rfl
  | ok ps =>
    rw [hps] at hj' hjoined
    rw [Scan.on_bind_of_ok hj', Scan.on_bind_of_ok (Scan.on_memo t j'), hjoined.packagesOf]
    rfl

theorem sorted_packagesIn {c : Category} {ps : List PackageName} (h : x.packagesIn t c = .ok ps) :
    Ascending.Sorted ps := by
  cases hl : x.listedCategories t with
  | error e =>
    rw [packagesIn_of_error hl] at h
    cases h
  | ok found =>
    have hc : x.isCategory t c = .ok (found.contains c) := by rw [isCategory, hl]; rfl
    rw [packagesIn_eq hc] at h
    cases hcontains : found.contains c with
    | true =>
      rw [hcontains, if_pos rfl] at h
      exact sorted_listedPackages h
    | false =>
      rw [hcontains] at h
      cases h
      exact Ascending.sorted_nil

/-- Without bare directories all that is known of a category is listed. -/
theorem Sound.mem_packagesIn {memo : IndexMemo} (h : Sound x t memo) {c : Category}
    (hbare : ∀ p, ¬ x.IsBare t ⟨c, p⟩) {ps : List PackageName} (hps : x.packagesIn t c = .ok ps)
    {p : PackageName} (hp : p ∈ memo.packagesOf c) : p ∈ ps := by
  have hholds := h.known ⟨c, p⟩ hp
  rw [packagesIn_eq (isCategory_of_holds hholds), if_pos rfl] at hps
  exact mem_listedPackages_of_holds hholds (hbare p) hps

/-- If all that is known of a category is listed, its packages are the listed ones. -/
theorem packages_on_of_listed {j : Journal IndexMemo} (h : Sound x t j.memo) {c : Category}
    (hlisted : ∀ ps, x.packagesIn t c = .ok ps → ∀ p ∈ j.memo.packagesOf c, p ∈ ps) :
    ∃ j', Sound x t j'.memo ∧ Joined (x.packagesIn t c) c j.memo j'.memo ∧
      (x.packages c).on t j = (x.packageNamesIn t c, j') := by
  obtain ⟨j', hs, hjoined, hj'⟩ := packages_on h c
  refine ⟨j', hs, hjoined, ?_⟩
  rw [hj', packageNamesIn]
  cases hps : x.packagesIn t c with
  | error e => rfl
  | ok ps =>
    have hsame : ps.foldl (fun known p => Ascending.insert p known) (j.memo.packagesOf c) = ps := by
      refine (Ascending.sorted_foldl_insert ps (h.sorted c)).eq_of_mem_iff
        (sorted_packagesIn hps) fun p => ?_
      rw [Ascending.mem_foldl_insert]
      exact ⟨fun hp => hp.elim id (hlisted ps hps p), Or.inl⟩
    simp only [Except.map, hsame]

theorem packages_yields {c : Category} (hbare : ∀ p, ¬ x.IsBare t ⟨c, p⟩) :
    Yields (Sound x t) (x.packages c) t (x.packageNamesIn t c) := by
  refine .of_on fun j h => ?_
  obtain ⟨j', hs, -, hj'⟩ :=
    packages_on_of_listed h fun ps hps _ hp => h.mem_packagesIn hbare hps hp
  exact ⟨j', hj', hs⟩

theorem hasPackage_yields {n : QualifiedName} (hbare : ¬ x.IsBare t n) :
    Yields (Sound x t) (x.hasPackage n) t (x.holds t n) := by
  refine .of_on fun j h => ?_
  obtain ⟨j', hj', hs, -⟩ := lookupPackage_on h n fun _ => hbare
  exact ⟨j', hj', hs⟩

theorem versions_yields (n : QualifiedName) :
    Yields (Sound x t) (x.versions n) t (x.versionsIn t n) := by
  refine .of_on fun j h => ?_
  obtain ⟨j', hj', hs, hversions⟩ := needVersions_on h n
  refine ⟨j', ?_, hs⟩
  unfold versions
  cases hvs : x.versionsIn t n with
  | error e =>
    rw [hvs] at hj'
    rw [Scan.on_bind_of_error hj']
  | ok vs =>
    rw [hvs] at hj'
    rw [Scan.on_bind_of_ok hj', Scan.on_bind_of_ok (Scan.on_memo t j'), hversions vs hvs]
    rfl

theorem hasVersion_yields (n : QualifiedName) (v : Version) :
    Yields (Sound x t) (x.hasVersion n v) t
      ((x.versionsIn t n).map fun vs => decide (v ∈ vs)) := by
  unfold hasVersion
  rw [bind_pure_comp]
  exact (versions_yields n).map _

theorem Sound.insertMetadata {memo : IndexMemo} (h : Sound x t memo) {n : QualifiedName}
    {v : Version} {m : Metadata} (hm : x.recordIn t n v = .ok m) :
    Sound x t { memo with metadata := memo.metadata.insert (n, v) m } := by
  refine ⟨h.categories, h.known, h.sorted, h.loaded, h.versions, h.whole, h.nothing,
    fun n' v' m' hm' => ?_⟩
  rw [Table.get?_insert] at hm'
  by_cases hkey : (n', v') = (n, v)
  · rw [if_pos hkey] at hm'
    cases hkey
    cases hm'
    exact hm
  · rw [if_neg hkey] at hm'
    exact h.metadata n' v' m' hm'

theorem metadata_yields (n : QualifiedName) (v : Version) :
    Yields (Sound x t) (x.metadata n v) t (x.recordIn t n v) := by
  refine .of_on fun j h => ?_
  unfold metadata
  rw [Scan.on_bind_of_ok (Scan.on_memo t j)]
  cases hm : j.memo.metadata.get? (n, v) with
  | some m =>
    refine ⟨j, ?_, h⟩
    rw [h.metadata n v m hm]
    rfl
  | none =>
    obtain ⟨j₁, hj₁, hs₁⟩ := (hasVersion_yields n v).on_eq h
    cases hvs : x.versionsIn t n with
    | error e =>
      rw [hvs] at hj₁
      rw [recordIn_of_error hvs]
      exact ⟨j₁, Scan.on_bind_of_error hj₁ _, hs₁⟩
    | ok vs =>
      rw [hvs] at hj₁
      simp only
      rw [Scan.on_bind_of_ok hj₁]
      by_cases hv : v ∈ vs
      · rw [if_pos (decide_eq_true hv)]
        obtain ⟨j₂, hj₂, hknow₂⟩ :=
          (reads_generate (t := t) x.generator x.location n v).on_eq j₁
        have hs₂ := hs₁.of_knowledge hknow₂
        rw [← recordIn_of_mem hvs hv] at hj₂
        cases hresult : x.recordIn t n v with
        | error e =>
          rw [hresult] at hj₂
          exact ⟨j₂, Scan.on_bind_of_error hj₂ _, hs₂⟩
        | ok m =>
          rw [hresult] at hj₂
          exact ⟨_, Scan.on_bind_of_ok hj₂ _, hs₂.insertMetadata hresult⟩
      · rw [if_neg (by simpa using hv), recordIn_of_notMem hvs hv]
        exact ⟨j₁, rfl, hs₁⟩

theorem categoriesContaining_yields {p : PackageName} (hbare : ∀ c, ¬ x.IsBare t ⟨c, p⟩) :
    Yields (Sound x t) (x.categoriesContaining p) t
      (x.categoriesIn t >>= fun cs => cs.filterM fun c => x.holds t ⟨c, p⟩) :=
  categories_yields.bind fun cs _ => .filterM cs fun c _ => hasPackage_yields (hbare c)

theorem allPackages_yields (hbare : ∀ n, ¬ x.IsBare t n) :
    Yields (Sound x t) x.allPackages t (x.allPackagesIn t) :=
  categories_yields.bind fun cs _ =>
    (Yields.mapM cs fun _ _ => packages_yields fun p => hbare ⟨_, p⟩).bind fun _ _ =>
      Scan.yields_pure _

/-! ## Histories -/

/-- A question of any kind. -/
inductive Query : Type → Type 1 where
  | ask {α : Type} (q : Question α) : Query α
  | allPackages : Query (List QualifiedName)

def reply {α : Type} (x : Index) : Query α → Scan IndexMemo α
  | .ask q => x.answer q
  | .allPackages => x.allPackages

def replyIn {α : Type} (x : Index) (t : FileTree) : Query α → Except Error α
  | .ask q => x.answerIn t q
  | .allPackages => x.allPackagesIn t

/-- The memos that an index may have after questions that were answered. -/
inductive Reached (x : Index) (t : FileTree) : IndexMemo → Prop where
  | fresh : Reached x t {}
  | answered {α : Type} {memo memo' : IndexMemo} {ws : List Warning} {a : α} (q : Query α) :
      Reached x t memo → (x.reply q).run t memo = (.ok a, memo', ws) → Reached x t memo'

/-- Every answer is the one that a fresh index gives. -/
def HistoryFree (x : Index) (t : FileTree) : Prop :=
  ∀ memo, Reached x t memo → ∀ (α : Type) (q : Query α) (a : α),
    ((x.reply q).run t memo).1 = .ok a → ((x.reply q).run t {}).1 = .ok a

/-- Without bare directories every answer from a sound memo is what the index would find. -/
theorem reply_yields (hbare : ∀ n, ¬ x.IsBare t n) {α : Type} (q : Query α) :
    Yields (Sound x t) (x.reply q) t (x.replyIn t q) := by
  cases q with
  | ask q =>
    cases q with
    | hasCategory c => exact hasCategory_yields c
    | categories => exact categories_yields
    | packages c => exact packages_yields fun p => hbare ⟨c, p⟩
    | hasPackage n => exact hasPackage_yields (hbare n)
    | versions n => exact versions_yields n
    | hasVersion n v => exact hasVersion_yields n v
    | metadata n v => exact metadata_yields n v
    | containing p => exact categoriesContaining_yields fun c => hbare ⟨c, p⟩
  | allPackages => exact allPackages_yields hbare

theorem lookupPackage_keeps (n : QualifiedName) : Keeps (Sound x t) (x.lookupPackage n) t := by
  intro j hj
  obtain ⟨r, j', hj', hs, -⟩ := lookupPackage_finds hj n
  rw [hj']
  exact hs

theorem packages_keeps (c : Category) : Keeps (Sound x t) (x.packages c) t := by
  intro j hj
  obtain ⟨j', hs, -, hj'⟩ := packages_on hj c
  rw [hj']
  exact hs

theorem categoriesContaining_keeps (p : PackageName) :
    Keeps (Sound x t) (x.categoriesContaining p) t :=
  categories_yields.keeps.bind fun cs => .filterM cs fun c => lookupPackage_keeps ⟨c, p⟩

/-- Whatever an index is asked, its memo stays sound. -/
theorem reply_keeps {α : Type} (q : Query α) : Keeps (Sound x t) (x.reply q) t := by
  cases q with
  | ask q =>
    cases q with
    | hasCategory c => exact (hasCategory_yields c).keeps
    | categories => exact categories_yields.keeps
    | packages c => exact packages_keeps c
    | hasPackage n => exact lookupPackage_keeps n
    | versions n => exact (versions_yields n).keeps
    | hasVersion n v => exact (hasVersion_yields n v).keeps
    | metadata n v => exact (metadata_yields n v).keeps
    | containing p => exact categoriesContaining_keeps p
  | allPackages =>
    exact categories_yields.keeps.bind fun cs =>
      (Keeps.mapM cs packages_keeps).bind fun _ => Scan.keeps_pure _

theorem Reached.sound {memo : IndexMemo} (h : Reached x t memo) : Sound x t memo := by
  induction h with
  | fresh => exact sound_empty
  | answered q _ hrun ih =>
    have hs := reply_keeps q ⟨_, []⟩ ih
    rw [Scan.run_eq_on, Prod.mk.injEq, Prod.mk.injEq] at hrun
    rw [hrun.2.1] at hs
    exact hs

/-- What is known of a category is among the answers about its packages. -/
theorem mem_packages_of_knows {memo : IndexMemo} (h : Sound x t memo) {n : QualifiedName}
    (hn : memo.knowsPackage n = true) {ps : List PackageName}
    (hps : x.packagesIn t n.category = .ok ps) :
    ∃ ns, ((x.packages n.category).run t memo).1 = .ok ns ∧ n ∈ ns := by
  obtain ⟨j', -, -, hj'⟩ := packages_on (j := ⟨memo, []⟩) h n.category
  refine ⟨_, by rw [Scan.run_eq_on, hj', hps]; rfl, List.mem_map.2 ⟨n.package, ?_, rfl⟩⟩
  rw [Ascending.mem_foldl_insert]
  exact Or.inr (of_decide_eq_true hn)

/-- The fresh answer about a category is its listing. -/
theorem packages_run_fresh (c : Category) {ps : List PackageName}
    (hps : x.packagesIn t c = .ok ps) {ns : List QualifiedName}
    (h : ((x.packages c).run t {}).1 = .ok ns) {n : QualifiedName} (hn : n ∈ ns) :
    n.package ∈ ps := by
  obtain ⟨j', -, -, hj'⟩ := packages_on (j := ⟨{}, []⟩) (sound_empty (x := x) (t := t)) c
  rw [Scan.run_eq_on, hj', hps] at h
  cases h
  obtain ⟨p, hp, rfl⟩ := List.mem_map.1 hn
  rw [Ascending.mem_foldl_insert] at hp
  exact hp.elim id nofun

/-- The directory alone makes the package known, and then it is among the packages. -/
theorem IsBare.not_historyFree {n : QualifiedName} (hbare : x.IsBare t n) :
    ¬ x.HistoryFree t := by
  intro hfree
  have hholds := hbare.holds
  obtain ⟨dirs, hdirs, -⟩ := mem_subdirectoriesIn_of_isDirectory hbare.directory
  obtain ⟨ps, hps, -⟩ := listedPackages_ok (x := x) hdirs
  have hpackages : x.packagesIn t n.category = .ok ps := by
    rw [packagesIn_eq hbare.category, if_pos rfl, hps]
  obtain ⟨j', hj', hs, hknows, -⟩ :=
    lookupPackage_on (j := ⟨{}, []⟩) (sound_empty (x := x) (t := t)) n nofun
  rw [hholds] at hj' hknows
  have hreached : Reached x t j'.memo := by
    refine Reached.answered (.ask (.hasPackage n)) .fresh
      (?_ : _ = (Except.ok true, j'.memo, j'.warnings))
    rw [Scan.run_eq_on, show (x.reply (.ask (.hasPackage n))).on t ⟨{}, []⟩ = _ from hj']
  obtain ⟨ns, hns, hmem⟩ := mem_packages_of_knows hs (hknows rfl) hpackages
  have hfresh := hfree _ hreached _ (.ask (.packages n.category)) ns hns
  have hlisted := packages_run_fresh n.category hpackages hfresh hmem
  have hentries := ((mem_listedPackages_iff hbare.layout hps).1 hlisted).2
  rw [show x.packageDir ⟨n.category, n.package⟩ = x.packageDir n from rfl, hbare.entries]
    at hentries
  cases hentries

/-- The answers of an index do not depend on what it was asked before if and only if no directory is
bare. -/
theorem historyFree_iff (x : Index) (t : FileTree) : x.HistoryFree t ↔ ∀ n, ¬ x.IsBare t n := by
  constructor
  · intro hfree n hbare
    exact hbare.not_historyFree hfree
  · intro hbare memo hreached α q a ha
    have hmemo := (reply_yields hbare q ⟨memo, []⟩ hreached.sound).1
    have hfresh := (reply_yields hbare q ⟨{}, []⟩ sound_empty).1
    rw [Scan.run_eq_on] at ha ⊢
    exact hfresh.trans (hmemo.symm.trans ha)

/-- A tree whose only package directory holds nothing. -/
def bareTree : FileTree :=
  ⟨⟨[(["r"], .directory), (["r", "profiles"], .directory),
    (["r", "profiles", "categories"], .text "cat\n"), (["r", "cat"], .directory),
    (["r", "cat", "bare"], .directory)]⟩⟩

def bareIndex : Index := ⟨"r", "/r", .tree, ["/r/profiles"], ⟨.ebuild, none⟩⟩

def treeCategory : Category := ⟨"cat", by decide⟩

def bareName : QualifiedName := ⟨treeCategory, ⟨"bare", by decide⟩⟩

theorem not_historyFree_bareTree : ¬ bareIndex.HistoryFree bareTree := by
  have hbare : bareIndex.IsBare bareTree ⟨⟨"cat", by decide⟩, ⟨"bare", by decide⟩⟩ := by
    constructor <;> decide +kernel
  exact hbare.not_historyFree

end PackageCatalog.Index
