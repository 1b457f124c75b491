import PackageCatalog.Proofs.Index.Learning

/-!
# Answers that stay

An index is asked one question after another, and the file tree may be another each time.  Once it
has enumerated something it gives the same answer for the rest of the run, whatever becomes of the
files:

    Later x {} memo → Sticky x t memo                                       (sticky_of_later)

for every answer that is given next.  What makes it so is that learning retains what is known
(`Learns.retains`), and that what is known hangs together (`Learns.coherent`).
-/

namespace PackageCatalog.Index

open IndexMemo (knowledge)

variable {x : Index} {t : FileTree} {memo memo' : IndexMemo}

/-! ## Runs -/

/-- What an index may remember after questions that were asked while the file tree changed. -/
inductive Later (x : Index) (memo : IndexMemo) : IndexMemo → Prop where
  | now : Later x memo memo
  | asked {α : Type} {memo' : IndexMemo} (t : FileTree) (q : Query α) (h : Later x memo memo') :
      Later x memo ((x.reply q).run t memo').2.1

/-- The answer to a question for the rest of the run. -/
def Settled (x : Index) (memo : IndexMemo) {α : Type} (q : Query α) (a : α) : Prop :=
  ∀ (u : FileTree) (memo' : IndexMemo), Later x memo memo' → ((x.reply q).run u memo').1 = .ok a

/-- What stays after the next answer, if it is one that enumerates or finds something. -/
structure Sticky (x : Index) (t : FileTree) (memo : IndexMemo) : Prop where
  categories : ∀ cs memo' ws, x.categories.run t memo = (.ok cs, memo', ws) →
    x.Settled memo' (.ask .categories) cs
  packages : ∀ c ns memo' ws, (x.packages c).run t memo = (.ok ns, memo', ws) →
    x.Settled memo' (.ask (.packages c)) ns ∧
      ∀ p, x.Settled memo' (.ask (.hasPackage ⟨c, p⟩)) (decide (⟨c, p⟩ ∈ ns))
  hasPackage : ∀ n memo' ws, (x.hasPackage n).run t memo = (.ok true, memo', ws) →
    x.Settled memo' (.ask (.hasPackage n)) true
  versions : ∀ n vs memo' ws, (x.versions n).run t memo = (.ok vs, memo', ws) → vs ≠ [] →
    x.Settled memo' (.ask (.versions n)) vs
  metadata : ∀ n v m memo' ws, (x.metadata n v).run t memo = (.ok m, memo', ws) →
    x.Settled memo' (.ask (.metadata n v)) m

/-! ## What is known hangs together -/

/-- Packages are known of known categories only, and in an installed-package database a category is
known as a whole or not at all. -/
structure Coherent (x : Index) (memo : IndexMemo) : Prop where
  known : ∀ c, memo.hasCategory c = false → memo.packagesOf c = []
  sorted : ∀ c, Ascending.Sorted (memo.packagesOf c)
  nothing : x.layout = .installed → ∀ n : QualifiedName, ¬ memo.isLoaded n.category →
    memo.packagesOf n.category = [] ∧ memo.versionsOf n = []

theorem coherent_empty : Coherent x {} where
  known _ _ := rfl
  sorted _ := Ascending.sorted_nil
  nothing _ _ _ := ⟨rfl, rfl⟩

theorem hasCategory_of_unloaded {c : Category}
    (h : memo.categories.bind (·.get? c) = some false) : memo.hasCategory c = true := by
  obtain ⟨table, htable, hflag⟩ := Option.bind_eq_some_iff.1 h
  rw [IndexMemo.hasCategory, htable, Option.any_some, Table.contains, hflag]
  rfl

theorem hasCategory_of_keys (h : memo'.categories.map Table.keys = memo.categories.map Table.keys)
    (c : Category) : memo'.hasCategory c = memo.hasCategory c := by
  unfold IndexMemo.hasCategory
  cases hold : memo.categories with
  | none =>
    rw [hold, Option.map_none, Option.map_eq_none_iff] at h
    rw [h]
  | some table =>
    rw [hold] at h
    obtain ⟨table', htable', hkeys⟩ := Option.map_eq_some_iff.1 h
    rw [htable']
    exact Table.contains_eq_of_keys_eq hkeys c

theorem Looks.coherent (h : Looks x t memo memo') (hm : Coherent x memo) : Coherent x memo' := by
  cases h with
  | nothing h =>
    rw [eq_of_knowledge h]
    exact ⟨hm.known, hm.sorted, hm.nothing⟩
  | categories unknown listed =>
    have hnone : ∀ c, memo.packagesOf c = [] := fun c => hm.known c (by
      rw [IndexMemo.hasCategory, unknown]
      rfl)
    exact ⟨fun c _ => hnone c, hm.sorted, fun hi n _ =>
      hm.nothing hi n (Sound.not_isLoaded unknown n.category)⟩
  | @package n tree unloaded present =>
    refine ⟨fun c hc => ?_, fun c => ?_, fun hi => ?_⟩
    · rw [IndexMemo.packagesOf_addPackage]
      split
      case isTrue heq =>
        rw [heq] at hc
        cases (hasCategory_of_unloaded unloaded).symm.trans hc
      case isFalse => exact hm.known c hc
    · rw [IndexMemo.packagesOf_addPackage]
      split
      case isTrue => exact Ascending.sorted_insert (hm.sorted c)
      case isFalse => exact hm.sorted c
    · rw [tree] at hi
      cases hi
  | @packages _ c ps h =>
    refine ⟨fun c' hc' => ?_, fun c' => ?_, fun hi n hn => ?_⟩
    · rw [hasCategory_of_keys h.keys] at hc'
      rw [h.packages c', if_neg]
      · exact hm.known c' hc'
      · rintro rfl
        cases (hasCategory_of_unloaded h.unloaded).symm.trans hc'
    · rw [h.packages c']
      split
      case isTrue => exact Ascending.sorted_foldl_insert _ (hm.sorted c')
      case isFalse => exact hm.sorted c'
    · rw [h.isLoaded, not_or] at hn
      have hversions := h.installed hi n
      rw [if_neg hn.1] at hversions
      rw [h.packages, if_neg hn.1, hversions]
      exact hm.nothing hi n hn.2
  | versions tree unknown listed =>
    refine ⟨hm.known, hm.sorted, fun hi => ?_⟩
    rw [tree] at hi
    cases hi

theorem Learned.coherent (h : Learned x t memo memo') (hm : Coherent x memo) :
    Coherent x memo' := by
  induction h with
  | refl => exact hm
  | tail _ hstep ih =>
    cases hstep with
    | looked h => exact h.coherent ih
    | record => exact ⟨ih.known, ih.sorted, ih.nothing⟩

/-! ## What is known stays known -/

/-- What an index does not unlearn. -/
structure Retains (x : Index) (memo memo' : IndexMemo) : Prop where
  keys : ∀ table, memo.categories = some table →
    memo'.categories.map Table.keys = some table.keys
  loaded : ∀ c, memo.isLoaded c → memo'.isLoaded c ∧ memo'.packagesOf c = memo.packagesOf c
  known : ∀ n, memo.knowsPackage n = true → memo'.knowsPackage n = true
  versions : x.layout = .tree → ∀ n vs, memo.versions.get? n = some vs →
    memo'.versions.get? n = some vs
  whole : x.layout = .installed → ∀ n : QualifiedName, memo.isLoaded n.category →
    memo'.versionsOf n = memo.versionsOf n
  metadata : ∀ key m, memo.metadata.get? key = some m → memo'.metadata.get? key = some m

theorem Retains.refl (memo : IndexMemo) : Retains x memo memo where
  keys table h := by rw [h]; rfl
  loaded _ h := ⟨h, rfl⟩
  known _ h := h
  versions _ _ _ h := h
  whole _ _ _ := rfl
  metadata _ _ h := h

theorem Retains.trans {memo'' : IndexMemo} (h : Retains x memo memo')
    (h' : Retains x memo' memo'') :
    Retains x memo memo'' where
  keys table ht := by
    obtain ⟨table', ht', hkeys⟩ := Option.map_eq_some_iff.1 (h.keys table ht)
    rw [h'.keys table' ht', hkeys]
  loaded c hc :=
    have ⟨hl, hp⟩ := h.loaded c hc
    have ⟨hl', hp'⟩ := h'.loaded c hl
    ⟨hl', hp'.trans hp⟩
  known n hn := h'.known n (h.known n hn)
  versions ht n vs hvs := h'.versions ht n vs (h.versions ht n vs hvs)
  whole hi n hn := (h'.whole hi n (h.loaded _ hn).1).trans (h.whole hi n hn)
  metadata key m hm := h'.metadata key m (h.metadata key m hm)

theorem Looks.retains (h : Looks x t memo memo') : Retains x memo memo' := by
  cases h with
  | nothing h =>
    rw [eq_of_knowledge h]
    have := Retains.refl (x := x) memo
    exact ⟨this.keys, this.loaded, this.known, this.versions, this.whole, this.metadata⟩
  | categories unknown listed =>
    have hunloaded := Sound.not_isLoaded unknown
    refine ⟨fun table htable => ?_, fun c hc => absurd hc (hunloaded c), fun _ h => h,
      fun _ _ _ h => h, fun _ _ _ => rfl, fun _ _ h => h⟩
    rw [unknown] at htable
    cases htable
  | @package n tree unloaded present =>
    refine ⟨fun table htable => ?_, fun c hc => ⟨hc, ?_⟩, fun n' hn' => ?_, fun _ _ _ h => h,
      fun _ _ _ => rfl, fun _ _ h => h⟩
    · exact congrArg (Option.map Table.keys) htable
    · rw [IndexMemo.packagesOf_addPackage, if_neg]
      rintro rfl
      exact absurd (hc.symm.trans unloaded) nofun
    · exact decide_eq_true (IndexMemo.mem_packagesOf_addPackage.2 (.inr (of_decide_eq_true hn')))
  | @packages _ c ps h =>
    have hne : ∀ c', memo.isLoaded c' → c' ≠ c := by
      rintro c' hc' rfl
      exact absurd (hc'.symm.trans h.unloaded) nofun
    refine ⟨fun table htable => ?_, fun c' hc' => ⟨(h.isLoaded c').2 (.inr hc'), ?_⟩,
      fun n hn => ?_, fun ht n vs hvs => ?_, fun hi n hn => ?_, fun key m hm => ?_⟩
    · rw [h.keys, htable]
      rfl
    · rw [h.packages c', if_neg (hne c' hc')]
    · refine decide_eq_true ?_
      rw [h.packages]
      split
      case isTrue => exact (Ascending.mem_foldl_insert _ _).2 (.inr (of_decide_eq_true hn))
      case isFalse => exact of_decide_eq_true hn
    · rw [h.tree ht, hvs]
    · have hversions := h.installed hi n
      rwa [if_neg (hne _ hn)] at hversions
    · rw [h.metadata, hm]
  | @versions n vs tree unknown listed =>
    refine ⟨fun table htable => congrArg (Option.map Table.keys) htable, fun _ hc => ⟨hc, rfl⟩,
      fun _ h => h, fun _ n' vs' hvs' => ?_, fun hi => ?_, fun _ _ h => h⟩
    · rw [Table.get?_insert, if_neg]
      · exact hvs'
      · rintro rfl
        rw [unknown] at hvs'
        cases hvs'
    · rw [tree] at hi
      cases hi

theorem Learns.retains (h : Learns x t memo memo') : Retains x memo memo' := by
  cases h with
  | looked h => exact h.retains
  | @record n v m known unknown generated =>
    have hsame := Retains.refl (x := x) memo
    refine ⟨hsame.keys, hsame.loaded, hsame.known, hsame.versions, hsame.whole,
      fun key m' hm' => ?_⟩
    rw [Table.get?_insert, if_neg]
    · exact hm'
    · rintro rfl
      rw [unknown] at hm'
      cases hm'

theorem Learned.retains (h : Learned x t memo memo') : Retains x memo memo' := by
  induction h with
  | refl => exact .refl memo
  | tail _ hstep ih => exact ih.trans hstep.retains

theorem Later.retains {start : IndexMemo} (h : Later x start memo) : Retains x start memo := by
  induction h with
  | now => exact .refl start
  | asked t q _ ih => exact ih.trans (reply_learned _ q ⟨_, []⟩ .refl).retains

theorem Later.coherent {start : IndexMemo} (h : Later x start memo) (hstart : Coherent x start) :
    Coherent x memo := by
  induction h with
  | now => exact hstart
  | asked t q _ ih => exact Learned.coherent (reply_learned _ q ⟨_, []⟩ .refl) ih

/-! ## Answers from what is known -/

theorem needCategories_of_known {j : Journal IndexMemo} {table : Table Category Bool}
    (h : j.memo.categories = some table) : x.needCategories.on t j = (.ok (), j) := by
  unfold needCategories
  rw [Scan.on_bind_of_ok (Scan.on_memo t j), h]
  rfl

theorem needCategories_ok {j j' : Journal IndexMemo} (h : x.needCategories.on t j = (.ok (), j')) :
    ∃ table, j'.memo.categories = some table := by
  unfold needCategories at h
  rw [Scan.on_bind_of_ok (Scan.on_memo t j)] at h
  cases hc : j.memo.categories with
  | some table =>
    rw [hc] at h
    cases h
    exact ⟨table, hc⟩
  | none =>
    rw [hc] at h
    obtain ⟨found, j₁, -, h⟩ := Scan.on_bind_eq_ok h
    cases h
    exact ⟨found, rfl⟩

theorem categories_ok {j j' : Journal IndexMemo} {cs : List Category}
    (h : x.categories.on t j = (.ok cs, j')) :
    (∃ table, j'.memo.categories = some table) ∧ cs = j'.memo.categoryNames := by
  obtain ⟨_, j₁, hneed, h⟩ := Scan.on_bind_eq_ok h
  cases h
  exact ⟨needCategories_ok hneed, rfl⟩

theorem categories_of_known {j : Journal IndexMemo} {table : Table Category Bool}
    (h : j.memo.categories = some table) :
    x.categories.on t j = (.ok j.memo.categoryNames, j) := by
  unfold categories
  rw [Scan.on_bind_of_ok (needCategories_of_known h)]
  rfl

/-- The packages of a category are all known, or there is no such category. -/
def Enumerated (memo : IndexMemo) (c : Category) : Prop :=
  ∃ table, memo.categories = some table ∧ table.get? c ≠ some false

theorem needPackages_ok {j j' : Journal IndexMemo} {c : Category}
    (h : (x.needPackages c).on t j = (.ok (), j')) : Enumerated j'.memo c := by
  rw [needPackages_eq] at h
  obtain ⟨_, j₁, hneed, h⟩ := Scan.on_bind_eq_ok h
  obtain ⟨table, htable⟩ := needCategories_ok hneed
  rw [Scan.on_bind_of_ok (Scan.on_memo t j₁)] at h
  split at h
  case isTrue hflag =>
    rcases loadPackages_cases (x := x) (t := t) hflag with ⟨e, j₂, hj₂, -⟩ | ⟨ps, j₂, hj₂, hfilled⟩
    · rw [hj₂] at h
      cases h
    · rw [hj₂] at h
      cases h
      obtain ⟨table', htable', hloaded⟩ :=
        Option.bind_eq_some_iff.1 ((hfilled.isLoaded c).2 (.inl rfl))
      exact ⟨table', htable', by rw [hloaded]; decide⟩
  case isFalse hflag =>
    cases h
    refine ⟨table, htable, fun hfalse => hflag ?_⟩
    rw [htable]
    exact hfalse

theorem packages_ok {j j' : Journal IndexMemo} {c : Category} {ns : List QualifiedName}
    (h : (x.packages c).on t j = (.ok ns, j')) :
    Enumerated j'.memo c ∧ ns = (j'.memo.packagesOf c).map fun p => ⟨c, p⟩ := by
  obtain ⟨_, j₁, hneed, h⟩ := Scan.on_bind_eq_ok h
  cases h
  exact ⟨needPackages_ok hneed, rfl⟩

theorem packages_of_enumerated {j : Journal IndexMemo} {c : Category}
    (h : Enumerated j.memo c) :
    (x.packages c).on t j = (.ok ((j.memo.packagesOf c).map fun p => ⟨c, p⟩), j) := by
  obtain ⟨table, htable, hflag⟩ := h
  have hneed : (x.needPackages c).on t j = (.ok (), j) := by
    rw [needPackages_eq, Scan.on_bind_of_ok (needCategories_of_known htable),
      Scan.on_bind_of_ok (Scan.on_memo t j), htable, Option.bind_some, if_neg hflag]
    rfl
  unfold packages
  rw [Scan.on_bind_of_ok hneed]
  rfl

theorem probePackage_true {j j' : Journal IndexMemo} {n : QualifiedName}
    (h : (x.probePackage n).on t j = (.ok true, j')) : j'.memo.knowsPackage n = true := by
  unfold probePackage at h
  cases hlayout : x.layout with
  | tree =>
    rw [hlayout] at h
    simp only at h
    rw [Scan.on_bind_of_ok (Scan.on_isDirectory (x.packageDir n) t j)] at h
    cases hd : t.isDirectory (x.packageDir n) with
    | true =>
      rw [hd] at h
      cases h
      exact decide_eq_true (IndexMemo.mem_packagesOf_addPackage.2 (.inl rfl))
    | false =>
      rw [hd] at h
      cases h
  | installed =>
    rw [hlayout] at h
    obtain ⟨_, j₁, -, h⟩ := Scan.on_bind_eq_ok h
    rw [Scan.on_bind_of_ok (Scan.on_memo t j₁)] at h
    simp only [Scan.on_pure, Prod.mk.injEq, Except.ok.injEq] at h
    rw [← h.2]
    exact h.1

/-- A package that is known is found without a look at the files. -/
theorem lookupPackage_of_knows {j : Journal IndexMemo} (hm : Coherent x j.memo)
    {n : QualifiedName} (h : j.memo.knowsPackage n = true) :
    (x.lookupPackage n).on t j = (.ok true, j) := by
  have hcategory : j.memo.hasCategory n.category = true := by
    refine Bool.ne_false_iff.1 fun hnone => ?_
    rw [IndexMemo.knowsPackage, hm.known n.category hnone] at h
    cases h
  obtain ⟨table, htable, hcontains⟩ := (Option.any_eq_true _ _).1 hcategory
  obtain ⟨loaded, hloaded⟩ := Option.isSome_iff_exists.1 hcontains
  rw [lookupPackage_eq, Scan.on_bind_of_ok (needCategories_of_known htable),
    Scan.on_bind_of_ok (Scan.on_memo t j), htable, Option.bind_some, hloaded]
  simp only
  rw [h, Bool.or_true, if_pos rfl]
  rfl

theorem lookupPackage_true {j j' : Journal IndexMemo} {n : QualifiedName}
    (h : (x.lookupPackage n).on t j = (.ok true, j')) : j'.memo.knowsPackage n = true := by
  rw [lookupPackage_eq] at h
  obtain ⟨_, j₁, -, h⟩ := Scan.on_bind_eq_ok h
  rw [Scan.on_bind_of_ok (Scan.on_memo t j₁)] at h
  split at h
  case h_1 => cases h
  case h_2 loaded hloaded =>
    split at h
    case isTrue =>
      simp only [Scan.on_pure, Prod.mk.injEq, Except.ok.injEq] at h
      rw [← h.2]
      exact h.1
    case isFalse => exact probePackage_true h

theorem lookupPackage_of_enumerated {j : Journal IndexMemo} (hm : Coherent x j.memo)
    {n : QualifiedName} (h : Enumerated j.memo n.category) :
    (x.lookupPackage n).on t j = (.ok (j.memo.knowsPackage n), j) := by
  obtain ⟨table, htable, hflag⟩ := h
  cases hn : table.get? n.category with
  | some loaded =>
    cases loaded with
    | false => exact absurd hn hflag
    | true => exact lookupPackage_of_isLoaded ((Sound.isLoaded_iff htable n.category).2 hn)
  | none =>
    have hnone : j.memo.hasCategory n.category = false := by
      rw [IndexMemo.hasCategory, htable, Option.any_some, Table.contains, hn]
      rfl
    rw [lookupPackage_eq, Scan.on_bind_of_ok (needCategories_of_known htable),
      Scan.on_bind_of_ok (Scan.on_memo t j), htable, Option.bind_some, hn, IndexMemo.knowsPackage,
      hm.known n.category hnone]
    rfl

theorem versions_ok {j j' : Journal IndexMemo} {n : QualifiedName} {vs : List Version}
    (h : (x.versions n).on t j = (.ok vs, j')) : vs = j'.memo.versionsOf n := by
  obtain ⟨_, j₁, -, h⟩ := Scan.on_bind_eq_ok h
  cases h
  rfl

/-- Versions that are known are not looked for. -/
theorem versions_of_known {j : Journal IndexMemo} {n : QualifiedName}
    (h : match x.layout with
      | .tree => j.memo.versions.contains n = true
      | .installed => j.memo.isLoaded n.category) :
    (x.versions n).on t j = (.ok (j.memo.versionsOf n), j) := by
  have hneed : (x.needVersions n).on t j = (.ok (), j) := by
    rw [needVersions_eq]
    cases hlayout : x.layout with
    | tree =>
      rw [hlayout] at h
      simp only
      rw [Scan.on_bind_of_ok (Scan.on_memo t j), if_pos h]
      rfl
    | installed =>
      rw [hlayout] at h
      simp only
      rw [Scan.on_discard, lookupPackage_of_isLoaded h]
      rfl
  unfold versions
  rw [Scan.on_bind_of_ok hneed]
  rfl

theorem metadata_ok {j j' : Journal IndexMemo} {n : QualifiedName} {v : Version} {m : Metadata}
    (h : (x.metadata n v).on t j = (.ok m, j')) : j'.memo.metadata.get? (n, v) = some m := by
  unfold metadata at h
  rw [Scan.on_bind_of_ok (Scan.on_memo t j)] at h
  cases hm : j.memo.metadata.get? (n, v) with
  | some m' =>
    rw [hm] at h
    cases h
    exact hm
  | none =>
    rw [hm] at h
    obtain ⟨present, j₁, -, h⟩ := Scan.on_bind_eq_ok h
    cases present with
    | false => cases h
    | true =>
      obtain ⟨m', j₂, -, h⟩ := Scan.on_bind_eq_ok h
      cases h
      exact (Table.get?_insert ..).trans (if_pos rfl)

theorem metadata_of_known {j : Journal IndexMemo} {n : QualifiedName} {v : Version} {m : Metadata}
    (h : j.memo.metadata.get? (n, v) = some m) : (x.metadata n v).on t j = (.ok m, j) := by
  unfold metadata
  rw [Scan.on_bind_of_ok (Scan.on_memo t j), h]
  rfl

/-! ## Runs from the start -/

theorem Retains.enumerated (h : Retains x memo memo') (hm : Coherent x memo)
    (hm' : Coherent x memo') {c : Category} (hc : Enumerated memo c) :
    Enumerated memo' c ∧ memo'.packagesOf c = memo.packagesOf c := by
  obtain ⟨table, htable, hflag⟩ := hc
  cases hloaded : table.get? c with
  | some loaded =>
    cases loaded with
    | false => exact absurd hloaded hflag
    | true =>
      obtain ⟨hl, hpackages⟩ := h.loaded c ((Sound.isLoaded_iff htable c).2 hloaded)
      obtain ⟨table', htable', hloaded'⟩ := Option.bind_eq_some_iff.1 hl
      exact ⟨⟨table', htable', by rw [hloaded']; nofun⟩, hpackages⟩
  | none =>
    have hkeys := h.keys table htable
    obtain ⟨table', htable', hkeys'⟩ := Option.map_eq_some_iff.1 hkeys
    have hnone : memo.hasCategory c = false := by
      rw [IndexMemo.hasCategory, htable, Option.any_some, Table.contains, hloaded]
      rfl
    have hsame : memo.categories.map Table.keys = some table.keys := by rw [htable]; rfl
    have hnone' := (hasCategory_of_keys (hkeys.trans hsame.symm) c).trans hnone
    refine ⟨⟨table', htable', fun hfalse => ?_⟩, by rw [hm.known c hnone, hm'.known c hnone']⟩
    rw [IndexMemo.hasCategory, htable', Option.any_some, Table.contains, hfalse] at hnone'
    cases hnone'

theorem Retains.categoryNames (h : Retains x memo memo') {table : Table Category Bool}
    (htable : memo.categories = some table) : memo'.categoryNames = memo.categoryNames := by
  rw [IndexMemo.categoryNames, h.keys table htable, IndexMemo.categoryNames, htable]
  rfl

/-- Versions that are known stay known. -/
theorem Retains.knows_versions (h : Retains x memo memo') (hm : Coherent x memo)
    {n : QualifiedName} (hne : memo.versionsOf n ≠ []) :
    memo'.versionsOf n = memo.versionsOf n ∧ match x.layout with
      | .tree => memo'.versions.contains n = true
      | .installed => memo'.isLoaded n.category := by
  cases hlayout : x.layout with
  | tree =>
    cases hvs : memo.versions.get? n with
    | none =>
      rw [IndexMemo.versionsOf, hvs] at hne
      exact absurd rfl hne
    | some vs =>
      have hvs' := h.versions hlayout n vs hvs
      constructor
      · rw [IndexMemo.versionsOf, IndexMemo.versionsOf, hvs, hvs']
      · rw [Table.contains, hvs']
        rfl
  | installed =>
    have hl : memo.isLoaded n.category := by
      by_contra hl
      exact hne (hm.nothing hlayout n hl).2
    exact ⟨h.whole hlayout n hl, (h.loaded _ hl).1⟩

/-- Versions that are known are given from then on. -/
theorem Retains.versions_on (h : Retains x memo memo') (hm : Coherent x memo)
    {n : QualifiedName} (hne : memo.versionsOf n ≠ []) (u : FileTree) (ws : List Warning) :
    (x.versions n).on u ⟨memo', ws⟩ = (.ok (memo.versionsOf n), ⟨memo', ws⟩) := by
  obtain ⟨hsame, hknown⟩ := h.knows_versions hm hne
  rw [← hsame]
  exact versions_of_known (j := ⟨memo', ws⟩) hknown

theorem on_of_run {α : Type} {s : Scan IndexMemo α} {r : Except Error α} {ws : List Warning}
    (h : s.run t memo = (r, memo', ws)) : s.on t ⟨memo, []⟩ = (r, ⟨memo', ws⟩) := by
  rw [Scan.run_eq_on, Prod.mk.injEq, Prod.mk.injEq] at h
  obtain ⟨rfl, rfl, rfl⟩ := h
  rfl

theorem Later.coherent_run {α : Type} (h : Later x {} memo) (q : Query α) {r : Except Error α}
    {ws : List Warning} (hrun : (x.reply q).run t memo = (r, memo', ws)) : Coherent x memo' := by
  have hm := (Later.asked t q h).coherent coherent_empty
  rwa [hrun] at hm

/-- An answer that what is known gives now is given for the rest of the run. -/
theorem settled_of_later {α : Type} {q : Query α} {a : α} (hm : Coherent x memo)
    (h : ∀ (u : FileTree) (memo' : IndexMemo), Retains x memo memo' → Coherent x memo' →
      (x.reply q).on u ⟨memo', []⟩ = (.ok a, ⟨memo', []⟩)) : x.Settled memo q a := by
  intro u memo' hlater
  rw [Scan.run_eq_on, h u memo' hlater.retains (hlater.coherent hm)]

/-- Once an index has enumerated categories, packages or versions, or found a package or a record,
it says so for the rest of the run. -/
theorem sticky_of_later (h : Later x {} memo) (t : FileTree) : Sticky x t memo where
  categories cs memo' ws hrun := by
    have hm := h.coherent_run (.ask .categories) hrun
    obtain ⟨⟨table, htable⟩, rfl⟩ := categories_ok (on_of_run hrun)
    refine settled_of_later hm fun u memo'' hretains _ => ?_
    obtain ⟨table'', htable'', -⟩ := Option.map_eq_some_iff.1 (hretains.keys table htable)
    rw [← hretains.categoryNames htable]
    exact categories_of_known (j := ⟨memo'', []⟩) htable''
  packages c ns memo' ws hrun := by
    have hm := h.coherent_run (.ask (.packages c)) hrun
    obtain ⟨henumerated, rfl⟩ := packages_ok (on_of_run hrun)
    refine ⟨settled_of_later hm fun u memo'' hretains hm'' => ?_,
      fun p => settled_of_later hm fun u memo'' hretains hm'' => ?_⟩
    · obtain ⟨henumerated'', hpackages⟩ := hretains.enumerated hm hm'' henumerated
      rw [← hpackages]
      exact packages_of_enumerated (j := ⟨memo'', []⟩) henumerated''
    · obtain ⟨henumerated'', hpackages⟩ := hretains.enumerated hm hm'' henumerated
      refine (lookupPackage_of_enumerated (j := ⟨memo'', []⟩) (n := ⟨c, p⟩) hm''
        henumerated'').trans ?_
      rw [IndexMemo.knowsPackage, hpackages]
      simp
  hasPackage n memo' ws hrun := by
    have hm := h.coherent_run (.ask (.hasPackage n)) hrun
    have hknown := lookupPackage_true (on_of_run hrun)
    exact settled_of_later hm fun u memo'' hretains hm'' =>
      lookupPackage_of_knows (j := ⟨memo'', []⟩) hm'' (hretains.known n hknown)
  versions n vs memo' ws hrun hne := by
    have hm := h.coherent_run (.ask (.versions n)) hrun
    obtain rfl := versions_ok (on_of_run hrun)
    exact settled_of_later hm fun u memo'' hretains _ => hretains.versions_on hm hne u []
  metadata n v m memo' ws hrun := by
    have hm := h.coherent_run (.ask (.metadata n v)) hrun
    have hknown := metadata_ok (on_of_run hrun)
    exact settled_of_later hm fun u memo'' hretains _ =>
      metadata_of_known (j := ⟨memo'', []⟩) (hretains.metadata (n, v) m hknown)

/-- What is remembered after a bare directory was found. -/
def probedMemo : IndexMemo := ((bareIndex.reply (.ask (.hasPackage bareName))).run bareTree {}).2.1

def listedMemo : IndexMemo := ((bareIndex.packages treeCategory).run bareTree probedMemo).2.1

theorem sticky_of_later_bareTree : Later bareIndex {} probedMemo ∧
    ((bareIndex.packages treeCategory).run bareTree probedMemo).1 = .ok [bareName] ∧
    bareIndex.Settled listedMemo (.ask (.packages treeCategory)) [bareName] := by
  have hlater : Later bareIndex {} probedMemo := .asked bareTree (.ask (.hasPackage bareName)) .now
  have hanswer : ((bareIndex.packages treeCategory).run bareTree probedMemo).1 = .ok [bareName] := by
    decide +kernel
  exact ⟨hlater, hanswer, ((sticky_of_later hlater bareTree).packages treeCategory [bareName] _ _
    (Prod.ext hanswer rfl)).1⟩

end PackageCatalog.Index
