import PackageCatalog.Proofs.Index.Learning

/-!
# Indexes that know the same

What an index answers, and what it knows afterwards, depends on what it knew before and on the files
alone: neither diagnostics nor the warnings that were reported before come into it.

    knowledge memo = knowledge memo' → x.reply q answers the same from both         (reply_agrees)
-/

namespace PackageCatalog.Index

open IndexMemo (knowledge)
open Scan (Agrees)

variable {x : Index} {t : FileTree} {memo memo' : IndexMemo}

/-- Two memos know the same. -/
def KnowsAlike (memo memo' : IndexMemo) : Prop := knowledge memo = knowledge memo'

theorem knowsAlike_iff : KnowsAlike memo memo' ↔ memo.categories = memo'.categories ∧
    memo.packages = memo'.packages ∧ memo.versions = memo'.versions ∧
    memo.metadata = memo'.metadata := by
  refine ⟨fun h => known_of_knowledge h, fun h => ?_⟩
  obtain ⟨hcategories, hpackages, hversions, hmetadata⟩ := h
  exact IndexMemo.ext_iff.2 ⟨hcategories, hpackages, hversions, hmetadata, rfl⟩

/-! ## Remembering -/

theorem KnowsAlike.addPackage (h : KnowsAlike memo memo') (n : QualifiedName) :
    KnowsAlike (memo.addPackage n) (memo'.addPackage n) := by
  obtain ⟨hcategories, hpackages, hversions, hmetadata⟩ := knowsAlike_iff.1 h
  unfold IndexMemo.addPackage
  exact knowsAlike_iff.2 ⟨hcategories, by rw [hpackages], hversions, hmetadata⟩

theorem KnowsAlike.addPackages (h : KnowsAlike memo memo') (c : Category)
    (ps : List PackageName) :
    KnowsAlike (ps.foldl (fun m p => m.addPackage ⟨c, p⟩) memo)
      (ps.foldl (fun m p => m.addPackage ⟨c, p⟩) memo') := by
  induction ps generalizing memo memo' with
  | nil => exact h
  | cons p ps ih => exact ih (h.addPackage ⟨c, p⟩)

theorem KnowsAlike.addVersion (h : KnowsAlike memo memo') (n : QualifiedName) (v : Version) :
    KnowsAlike (memo.addVersion n v) (memo'.addVersion n v) := by
  obtain ⟨hcategories, hpackages, hversions, hmetadata⟩ := knowsAlike_iff.1 h
  unfold IndexMemo.addVersion
  exact knowsAlike_iff.2 ⟨hcategories, hpackages, by rw [hversions], hmetadata⟩

theorem KnowsAlike.setLoaded (h : KnowsAlike memo memo') (c : Category) :
    KnowsAlike (memo.setLoaded c) (memo'.setLoaded c) := by
  obtain ⟨hcategories, hpackages, hversions, hmetadata⟩ := knowsAlike_iff.1 h
  unfold IndexMemo.setLoaded
  exact knowsAlike_iff.2 ⟨by rw [hcategories], hpackages, hversions, hmetadata⟩

/-! ## Looking around -/

theorem needCategories_agrees : Agrees KnowsAlike x.needCategories t := by
  refine Scan.agrees_memo_bind (fun m m' h => ?_) fun m => ?_
  · rw [(knowsAlike_iff.1 h).1]
  · split
    · refine (reads_scanCategories (x := x) (t := t)).agrees.bind fun found => ?_
      refine Scan.agrees_modifyMemo fun m m' h => ?_
      obtain ⟨-, hpackages, hversions, hmetadata⟩ := knowsAlike_iff.1 h
      exact knowsAlike_iff.2 ⟨rfl, hpackages, hversions, hmetadata⟩
    · exact Scan.agrees_pure ()

theorem addInstalledPackage_agrees (c : Category) (found : List PackageName)
    (entry : String × String) : Agrees KnowsAlike (addInstalledPackage c found entry) t := by
  unfold addInstalledPackage
  cases splitVersioned entry.1 with
  | ok found' =>
    exact (Scan.agrees_modifyMemo fun m m' h => h.addVersion _ _).bind fun _ => Scan.agrees_pure _
  | error e => exact (reads_skip entry.2 e).agrees.bind fun _ => Scan.agrees_pure found

theorem needPackages_agrees (c : Category) : Agrees KnowsAlike (x.needPackages c) t := by
  refine needCategories_agrees.bind fun _ => Scan.agrees_memo_bind (fun m m' h => ?_) fun m => ?_
  · rw [(knowsAlike_iff.1 h).1]
  · split
    · refine (reads_subdirectories (x.categoryDir c)).agrees.bind fun dirs => ?_
      have hadd (found : List PackageName) : Agrees KnowsAlike (Scan.modifyMemo fun memo =>
          (found.foldl (fun m p => m.addPackage ⟨c, p⟩) memo).setLoaded c) t :=
        Scan.agrees_modifyMemo fun m m' h => (h.addPackages c found).setLoaded c
      cases x.layout with
      | tree => exact (Agrees.foldlM dirs (fun found entry =>
          (reads_addTreePackage found entry).agrees) []).bind hadd
      | installed => exact (Agrees.foldlM dirs (addInstalledPackage_agrees c) []).bind hadd
    · exact Scan.agrees_pure ()

theorem KnowsAlike.knowsPackage (h : KnowsAlike memo memo') (n : QualifiedName) :
    memo.knowsPackage n = memo'.knowsPackage n := by
  unfold IndexMemo.knowsPackage IndexMemo.packagesOf
  rw [(knowsAlike_iff.1 h).2.1]

theorem lookupPackage_agrees (n : QualifiedName) : Agrees KnowsAlike (x.lookupPackage n) t := by
  refine needCategories_agrees.bind fun _ => Scan.agrees_memo_bind (fun m m' h => ?_) fun m => ?_
  · simp only [(knowsAlike_iff.1 h).1, h.knowsPackage n]
  · split
    · exact Scan.agrees_pure false
    · split
      · exact Scan.agrees_pure _
      · cases x.layout with
        | tree =>
          refine (Scan.reads_isDirectory (x.packageDir n)).isReader.agrees.bind fun present => ?_
          cases present with
          | true => exact (Scan.agrees_modifyMemo fun m m' h => h.addPackage n).bind fun _ =>
              Scan.agrees_pure true
          | false => exact Scan.agrees_pure false
        | installed =>
          refine (needPackages_agrees n.category).bind fun _ => ?_
          refine Scan.agrees_memo_bind (fun m m' h => ?_) fun m => Scan.agrees_pure _
          rw [h.knowsPackage n]

theorem needVersions_agrees (n : QualifiedName) : Agrees KnowsAlike (x.needVersions n) t := by
  unfold needVersions
  cases x.layout with
  | installed => exact (lookupPackage_agrees n).map fun _ => ()
  | tree =>
    refine Scan.agrees_memo_bind (fun m m' h => ?_) fun m => ?_
    · simp only [(knowsAlike_iff.1 h).2.2.1]
    · split
      · exact Scan.agrees_pure ()
      · refine (lookupPackage_agrees n).bind fun found => ?_
        split
        · refine (reads_files (x.packageDir n)).agrees.bind fun entries => ?_
          refine (Agrees.foldlM entries (fun found entry =>
            (reads_addEntryFile n.package found entry).agrees) []).bind fun found => ?_
          refine Scan.agrees_modifyMemo fun m m' h => ?_
          obtain ⟨hcategories, hpackages, hversions, hmetadata⟩ := knowsAlike_iff.1 h
          exact knowsAlike_iff.2 ⟨hcategories, hpackages, by rw [hversions], hmetadata⟩
        · exact Scan.agrees_pure ()

/-! ## Answers -/

/-- An answer from what is known. -/
theorem agrees_known {α : Type} {answer : IndexMemo → α}
    (h : ∀ m m', KnowsAlike m m' → answer m = answer m') :
    Agrees KnowsAlike (do return answer (← Scan.memo)) t :=
  Scan.agrees_memo_bind (fun m m' hm => by rw [h m m' hm]) fun _ => Scan.agrees_pure _

theorem categories_agrees : Agrees KnowsAlike x.categories t :=
  needCategories_agrees.bind fun _ => agrees_known fun m m' h => by
    unfold IndexMemo.categoryNames
    rw [(knowsAlike_iff.1 h).1]

theorem packages_agrees (c : Category) : Agrees KnowsAlike (x.packages c) t :=
  (needPackages_agrees c).bind fun _ => agrees_known fun m m' h => by
    unfold IndexMemo.packagesOf
    rw [(knowsAlike_iff.1 h).2.1]

theorem versions_agrees (n : QualifiedName) : Agrees KnowsAlike (x.versions n) t :=
  (needVersions_agrees n).bind fun _ => agrees_known fun m m' h => by
    unfold IndexMemo.versionsOf
    rw [(knowsAlike_iff.1 h).2.2.1]

theorem hasVersion_agrees (n : QualifiedName) (v : Version) :
    Agrees KnowsAlike (x.hasVersion n v) t :=
  (versions_agrees n).bind fun _ => Scan.agrees_pure _

theorem metadata_agrees (n : QualifiedName) (v : Version) :
    Agrees KnowsAlike (x.metadata n v) t := by
  refine Scan.agrees_memo_bind (fun m m' h => ?_) fun m => ?_
  · rw [(knowsAlike_iff.1 h).2.2.2]
  · split
    · exact Scan.agrees_pure _
    · refine (hasVersion_agrees n v).bind fun found => ?_
      split
      · refine (reads_generate x.generator x.location n v).agrees.bind fun m => ?_
        refine (Scan.agrees_modifyMemo fun m m' h => ?_).bind fun _ => Scan.agrees_pure _
        obtain ⟨hcategories, hpackages, hversions, hmetadata⟩ := knowsAlike_iff.1 h
        exact knowsAlike_iff.2 ⟨hcategories, hpackages, hversions, by rw [hmetadata]⟩
      · exact Scan.agrees_throw _

theorem answer_agrees {α : Type} (q : Question α) : Agrees KnowsAlike (x.answer q) t := by
  cases q with
  | hasCategory c =>
    refine needCategories_agrees.bind fun _ => agrees_known fun m m' h => ?_
    unfold IndexMemo.hasCategory
    rw [(knowsAlike_iff.1 h).1]
  | categories => exact categories_agrees
  | packages c => exact packages_agrees c
  | hasPackage n => exact lookupPackage_agrees n
  | versions n => exact versions_agrees n
  | hasVersion n v => exact hasVersion_agrees n v
  | metadata n v => exact metadata_agrees n v
  | containing p => exact categories_agrees.bind fun cs => .filterM cs fun c =>
      lookupPackage_agrees ⟨c, p⟩

theorem reply_agrees {α : Type} (q : Query α) : Agrees KnowsAlike (x.reply q) t := by
  cases q with
  | ask q => exact answer_agrees q
  | allPackages => exact categories_agrees.bind fun cs =>
      (Agrees.mapM cs packages_agrees).bind fun _ => Scan.agrees_pure _

end PackageCatalog.Index
