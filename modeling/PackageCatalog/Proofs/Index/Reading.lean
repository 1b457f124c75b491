import PackageCatalog.Proofs.Index.Listing

/-!
# Scans of an index that read

Listing directories, reading the lists of categories and generating metadata leave what an index
knows as it is, and find what the memo-free functions of the listing say: each scan `f` has a lemma
`reads_f`.
-/

namespace PackageCatalog

/-- What a memo knows; its diagnostics are left out. -/
def IndexMemo.knowledge (memo : IndexMemo) : IndexMemo := { memo with diagnostics := [] }

namespace Index

open IndexMemo (knowledge)
open Scan (IsReader Reads)

variable {x : Index} {t : FileTree}

theorem reads_skip (path : String) (e : Error) : Reads knowledge (skip path e) t (.ok ()) := by
  intro shown j hj
  exact ⟨rfl, hj⟩

theorem reads_listing {τ : Type} {view : IndexMemo → τ} {wanted : String → Scan IndexMemo Bool}
    {kind : String → Bool} (h : ∀ path, Reads view (wanted path) t (.ok (kind path)))
    (dir : String) : Reads view (listing wanted dir) t (entriesIn t kind dir) := by
  have hlist : Reads view (Scan.list dir) t (Scan.listed t dir) := Scan.reads_list dir
  have hread := hlist.bind fun names _ =>
    Scan.Reads.filterM ((names.filter (!isHidden ·)).map fun name => (name, Path.join dir name))
      fun entry _ => h entry.2
  unfold entriesIn
  simp only [Scan.filterM_ok] at hread
  cases hl : Scan.listed t dir with
  | ok names => rw [hl] at hread; exact hread
  | error e => rw [hl] at hread; exact hread

theorem reads_subdirectories (dir : String) :
    Reads knowledge (subdirectories dir) t (subdirectoriesIn t dir) :=
  reads_listing Scan.reads_isDirectory dir

theorem reads_files (dir : String) : Reads knowledge (files dir) t (filesIn t dir) :=
  reads_listing Scan.reads_isFile dir

theorem reads_addCategory (found : Table Category Bool) (path name : String) :
    Reads knowledge (addCategory found path name) t (.ok (withCategory found name)) := by
  unfold addCategory withCategory
  cases Category.parse name with
  | ok c => exact Scan.reads_pure _
  | error e => exact (reads_skip path e).bind fun _ _ => Scan.reads_pure found

theorem reads_addCategories (found : Table Category Bool) {α : Type} (path name : α → String)
    (xs : List α) :
    Reads knowledge (xs.foldlM (fun found a => addCategory found (path a) (name a)) found) t
      (.ok (xs.foldl (fun found a => withCategory found (name a)) found)) := by
  rw [← Scan.foldlM_ok]
  exact .foldlM xs (fun found a _ => reads_addCategory found (path a) (name a)) found

theorem reads_addSource (found : Table Category Bool × Bool) (dir : String) :
    Reads knowledge (addSource found dir) t (withSource t found dir) := by
  unfold addSource withSource
  have hread : Reads knowledge _ t _ := Scan.reads_readLineFile (Path.join dir "categories")
  cases hc : Scan.content t (Path.join dir "categories") with
  | error e =>
    rw [hc] at hread
    exact hread.bind_error _
  | ok content =>
    rw [hc] at hread
    refine hread.bind_ok ?_
    cases content with
    | none => exact Scan.reads_pure found
    | some content => exact (reads_addCategories found.1 _ _ _).bind_ok (Scan.reads_pure _)

theorem reads_scanCategories : Reads knowledge x.scanCategories t (x.listedCategories t) := by
  unfold scanCategories listedCategories
  refine (Scan.Reads.foldlM x.sources (fun found dir _ => reads_addSource found dir) _).bind
    fun result _ => ?_
  obtain ⟨found, listed⟩ := result
  cases listed with
  | true => exact Scan.reads_pure found
  | false => exact (reads_subdirectories x.location).bind fun _ _ => reads_addCategories found _ _ _

theorem reads_hasEntryFiles (dir : String) :
    Reads knowledge (x.hasEntryFiles dir) t (x.holdsEntries t dir) := by
  unfold hasEntryFiles holdsEntries
  rw [bind_pure_comp]
  exact (reads_files dir).map _

theorem reads_addTreePackage (found : List PackageName) (entry : String × String) :
    Reads knowledge (x.addTreePackage found entry) t (x.withTreePackage t found entry) := by
  unfold addTreePackage withTreePackage
  cases PackageName.parse entry.1 with
  | ok p => exact (reads_hasEntryFiles entry.2).bind fun _ _ => Scan.reads_pure _
  | error e => exact (reads_skip entry.2 e).bind_ok (Scan.reads_pure found)

theorem reads_addEntryFile (p : PackageName) (found : List Version) (entry : String × String) :
    Reads knowledge (x.addEntryFile p found entry) t (.ok (x.withEntryFile p found entry)) := by
  unfold addEntryFile withEntryFile
  cases stripSuffix? x.generator.format.extension entry.1 with
  | none => exact Scan.reads_pure found
  | some stem =>
    cases hstart : stripStart? (p.text ++ "-") stem with
    | none =>
      simp only [hstart]
      exact (Scan.reads_warn _).bind_ok (Scan.reads_pure found)
    | some text =>
      simp only [hstart]
      cases Version.parse text with
      | ok v => exact Scan.reads_pure _
      | error e => exact (reads_skip entry.2 e).bind_ok (Scan.reads_pure found)

theorem reads_recordOf (g : Generator) (keys : Table String String) {σ τ : Type} {view : σ → τ} :
    Reads view (g.recordOf keys) t (Metadata.ofKeys g.eapis keys) := by
  unfold Generator.recordOf
  cases Metadata.ofKeys g.eapis keys with
  | ok m =>
    exact (Scan.reads_forM_warn (Metadata.provideWarnings _)).bind_ok (Scan.reads_pure m)
  | error e => exact Scan.reads_throw e

theorem isReader_readInstalledKeys {τ : Type} {view : IndexMemo → τ} (dir : String) :
    IsReader view (readInstalledKeys dir) t := by
  refine (IsReader.mapM installedKeys fun key => ?_).bind fun pairs => Scan.isReader_pure _
  refine (Scan.reads_readText? (Path.join dir key)).isReader.bind fun value => ?_
  cases value with
  | none => exact Scan.isReader_pure _
  | some value => exact Scan.isReader_pure _

theorem isReader_generate {τ : Type} {view : IndexMemo → τ} (g : Generator) (location : String)
    (n : QualifiedName) (v : Version) : IsReader view (g.generate location n v) t := by
  unfold Generator.generate
  cases g.format with
  | ebuild =>
    refine (Scan.reads_readText? (cacheEntryPath location n v)).isReader.bind fun content => ?_
    cases content with
    | none => exact Scan.isReader_throw _
    | some content => exact ((reads_recordOf g _).tryCatch fun e => Scan.reads_throw _).isReader
  | vdb =>
    exact (isReader_readInstalledKeys _).bind fun keys => (reads_recordOf g keys).isReader

theorem reads_generate (g : Generator) (location : String) (n : QualifiedName) (v : Version) :
    Reads knowledge (g.generate location n v) t
      ((g.generate location n v : Scan IndexMemo Metadata).found t) :=
  (isReader_generate g location n v).reads_found

end Index

end PackageCatalog
