import PackageCatalog.Proofs.Index.Recall
import PackageCatalog.Proofs.Repository.Containing

/-!
# A names cache that is written anew

A repository fills its names cache with what its index lists, and an index lists what it recalls
(`Index.mem_list_iff`).  The cache then reflects the files if and only if what is recalled is what a
new index would list:

    c.Reflects u x t ↔ x.UpToDate t memo                                  (reflects_iff)
-/

namespace PackageCatalog

open NamesCache (AllWritten Consulted Overlooked Written categoriesOf ofBase)

/-! ## Reflecting the files -/

/-- What is recalled is what a new index lists, a package that is named like the version file
apart. -/
def Index.UpToDate (x : Index) (t : FileTree) (memo : IndexMemo) : Prop :=
  ∀ n : QualifiedName, n.package.text ≠ versionFileName → (x.Recalls t memo n ↔ x.Lists t n)

theorem Index.upToDate_empty (x : Index) (t : FileTree) : x.UpToDate t {} :=
  fun _ _ => recalls_empty_iff

namespace NamesCache

variable {c : NamesCache} {x : Index} {t u : FileTree}

/-- Whatever was looked up before, a lookup answers the categories in which a new index lists the
package. -/
def Reflects (c : NamesCache) (u : FileTree) (x : Index) (t : FileTree) : Prop :=
  ∀ p : PackageName, p.text ≠ versionFileName → ∀ memo, Consulted c u memo →
    ∃ cs, ((c.lookup p).run u memo).1 = .ok (some cs) ∧ ∀ cat, cat ∈ cs ↔ x.Lists t ⟨cat, p⟩

theorem reflects_congr {u' : FileTree} (h : ∀ p, c.answerIn u' p = c.answerIn u p) :
    c.Reflects u' x t ↔ c.Reflects u x t := by
  have hone : ∀ {u u' : FileTree}, (∀ p, c.answerIn u' p = c.answerIn u p) →
      c.Reflects u x t → c.Reflects u' x t := by
    intro u u' h hreflects p hp memo hmemo
    obtain ⟨cs, hcs, hlists⟩ := hreflects p hp c.freshMemo .fresh
    refine ⟨cs, ?_, hlists⟩
    rw [lookup_run sound_freshMemo, ← h, ← lookup_run hmemo.sound] at hcs
    exact hcs
  exact ⟨hone fun p => (h p).symm, hone h⟩

/-- A cache that answers what was listed reflects the files if and only if the list was up to
date. -/
theorem reflects_iff {j j' : Journal IndexMemo} {ns : List QualifiedName}
    (hlist : x.allPackages.on t j = (.ok ns, j'))
    (hanswer : ∀ p, p.text ≠ versionFileName → c.answerIn u p = some (categoriesOf ns p)) :
    c.Reflects u x t ↔ x.UpToDate t j.memo := by
  have hmem : ∀ n : QualifiedName, n.category ∈ categoriesOf ns n.package ↔
      x.Recalls t j.memo n := fun n =>
    Index.mem_categoriesOf_iff.trans (Index.mem_list_iff hlist)
  constructor
  · intro hreflects n hn
    obtain ⟨cs, hcs, hlists⟩ := hreflects n.package hn c.freshMemo .fresh
    rw [lookup_run sound_freshMemo, hanswer n.package hn] at hcs
    obtain rfl := Option.some.inj (Except.ok.inj hcs)
    rw [← hmem, hlists]
  · intro hcurrent p hp memo hmemo
    refine ⟨categoriesOf ns p, by rw [lookup_run hmemo.sound, hanswer p hp], fun cat => ?_⟩
    rw [hmem ⟨cat, p⟩]
    exact hcurrent ⟨cat, p⟩ hp

end NamesCache

/-! ## Writing a names cache anew -/

namespace MemoParts

variable {σ : Type} {parts : MemoParts σ} {c : NamesCache} {x : Index} {w s : Workspace σ}

/-- Lists all packages and writes the names cache anew. -/
def renewNames (parts : MemoParts σ) (c : NamesCache) (x : Index) : Change σ Unit := do
  let names ← Change.scan (Scan.zoom parts.index parts.setIndex x.allPackages)
  (c.regenerate names).zoom parts.names parts.setNames

theorem renewNames_ok (h : (parts.renewNames c x).on w = (.ok (), s)) :
    ∃ ns j names, x.allPackages.on w.files ⟨parts.index w.memo, w.warnings⟩ = (.ok ns, j) ∧
      (c.regenerate ns).on
          ⟨w.files, parts.names (parts.setIndex w.memo j.memo), j.warnings⟩ =
        (.ok (), ⟨s.files, names, s.warnings⟩) ∧
      s.memo = parts.setNames (parts.setIndex w.memo j.memo) names := by
  obtain ⟨ns, w₁, hlist, h⟩ := Change.on_bind_eq_ok h
  rw [Change.on_scan, Scan.on_zoom] at hlist
  obtain ⟨hns, rfl⟩ := Prod.mk.inj hlist
  rw [Change.on_zoom] at h
  obtain ⟨hok, rfl⟩ := Prod.mk.inj h
  exact ⟨ns, _, _, Prod.ext hns rfl, Prod.ext hok rfl, rfl⟩

/-- If no file is reported that could not be written, the list has been written. -/
theorem renewNames_written {base name : String} (hname : Path.IsName name)
    (henabled : isDisabled (ofBase base name).location = false)
    (h : (parts.renewNames (ofBase base name) x).on w = (.ok (), s))
    (hwritten : AllWritten s.warnings) :
    ∃ ns j, x.allPackages.on w.files ⟨parts.index w.memo, w.warnings⟩ = (.ok ns, j) ∧
      Written (ofBase base name) ns w.files s.files ∧
      s.memo = parts.setNames (parts.setIndex w.memo j.memo) (ofBase base name).freshMemo := by
  obtain ⟨ns, j, names, hlist, hregenerate, hmemo⟩ := renewNames_ok h
  obtain ⟨rfl, extra, hextra, hperformed⟩ := NamesCache.regenerate_reports henabled hregenerate
  have hall : AllWritten extra := fun path problem hmem => hwritten path problem (by
    rw [show s.warnings = j.warnings ++ extra from hextra]
    exact List.mem_append_right j.warnings hmem)
  obtain ⟨steps, hsteps, hdone⟩ := hperformed hall
  have hplace := NamesCache.isPlace_ofBase_of_isName hname henabled
  exact ⟨ns, j, hlist, NamesCache.written_of_performed hplace hsteps hdone, hmemo⟩

end MemoParts

end PackageCatalog
