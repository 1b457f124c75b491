import PackageCatalog.Proofs.Index.InstalledRecords

/-!
# How reading a record fails

A record is read of a package version that exists.  Whatever is wrong with its files, the failure is
never that there is no such package:

    (g.generate location n v).found t = .error e → e.kind ≠ .noSuchPackage     (existing_generate)
-/

namespace PackageCatalog

/-- Whatever goes wrong, it is not that a package is missing. -/
def Existing {α : Type} (r : Except Error α) : Prop := ∀ e, r = .error e → e.kind ≠ .noSuchPackage

section
variable {α β : Type}

theorem existing_ok (a : α) : Existing (.ok a) := nofun

theorem existing_error {e : Error} (h : e.kind ≠ .noSuchPackage) :
    Existing (.error e : Except Error α) := by
  rintro _ ⟨⟩
  exact h

theorem Existing.bind {r : Except Error α} {f : α → Except Error β} (hr : Existing r)
    (hf : ∀ a, Existing (f a)) : Existing (r >>= f) := by
  cases r with
  | ok a => exact hf a
  | error e => exact existing_error (hr e rfl)

theorem Existing.map {r : Except Error α} (hr : Existing r) (f : α → β) : Existing (r.map f) := by
  cases r with
  | ok a => exact existing_ok (f a)
  | error e => exact existing_error (hr e rfl)

theorem Existing.mapM {f : α → Except Error β} (hf : ∀ a, Existing (f a)) (xs : List α) :
    Existing (xs.mapM f) := by
  induction xs with
  | nil => exact existing_ok []
  | cons x xs ih =>
    rw [List.mapM_cons]
    exact (hf x).bind fun _ => ih.bind fun _ => existing_ok _

theorem existing_mapError {ε : Type} {f : ε → Error} (h : ∀ e, (f e).kind ≠ .noSuchPackage)
    (r : Except ε α) : Existing (r.mapError f) := by
  cases r with
  | ok a => exact existing_ok a
  | error e => exact existing_error (h e)

end

/-! ## Fields -/

theorem existing_rdependDefaultsFor (eapis : Option EapiTable) (eapi : String) :
    Existing (rdependDefaultsFor eapis eapi) := by
  unfold rdependDefaultsFor
  cases eapis with
  | none =>
    refine Existing.map ?_ _
    unfold Eapi.parse
    split
    · exact existing_ok _
    · exact existing_error nofun
  | some table =>
    cases hd : table.get? eapi with
    | none =>
      simp only [hd]
      exact existing_error nofun
    | some d =>
      simp only [hd]
      exact existing_ok _

theorem existing_parseSlot (s : String) : Existing (Metadata.parseSlot s) := by
  unfold Metadata.parseSlot
  split
  · exact existing_error nofun
  · split <;> exact existing_ok _

theorem existing_parseKeywords (s : String) : Existing (Keyword.parseList s) := by
  refine Existing.mapM (fun word => ?_) _
  unfold Keyword.parse
  split
  · exact existing_ok _
  · exact existing_error nofun

theorem existing_parseDependencies (s : String) : Existing (Dependency.parseList s) :=
  existing_mapError nofun _

/-! ## Records -/

theorem existing_ofKeys (eapis : Option EapiTable) (keys : Table String String) :
    Existing (Metadata.ofKeys eapis keys) := by
  have hlast {rdepend : Except Error (List Dependency)} (h : Existing rdepend)
      (record : List Dependency → List Keyword → List Dependency → Metadata) :
      Existing (do
        let rdepend ← rdepend
        let keywords ← Keyword.parseList (Metadata.field keys "KEYWORDS")
        let pdepend ← Dependency.parseList (Metadata.field keys "PDEPEND")
        return record rdepend keywords pdepend) :=
    h.bind fun _ => (existing_parseKeywords _).bind fun _ =>
      (existing_parseDependencies _).bind fun _ => existing_ok _
  unfold Metadata.ofKeys
  refine (existing_rdependDefaultsFor _ _).bind fun defaults => ?_
  dsimp only
  split
  · refine (existing_ok _).bind fun _ => (existing_parseSlot _).bind fun _ =>
      (existing_parseDependencies _).bind fun _ => ?_
    split
    · exact hlast (existing_parseDependencies _) _
    · exact hlast (existing_ok _) _
  · exact existing_error (e := .missingField "DESCRIPTION") nofun

theorem existing_content (t : FileTree) (path : String) : Existing (Scan.content t path) := by
  unfold Scan.content
  split
  · exact existing_ok _
  · exact existing_ok _
  · exact existing_error nofun

theorem existing_installedKeysIn (t : FileTree) (dir : String) :
    Existing (installedKeysIn t dir) :=
  (Existing.mapM (fun _ => (existing_content t _).map _) _).map _

/-- The record of a package version of a tree is made from its file in the metadata cache. -/
theorem reads_generate_tree {σ τ : Type} {view : σ → τ} {t : FileTree} {g : Generator}
    (hformat : g.format = .ebuild) (location : String) (n : QualifiedName) (v : Version) :
    Scan.Reads view (g.generate location n v) t
      (Scan.content t (cacheEntryPath location n v) >>= fun
        | none => .error (.noCacheEntry (n.versioned v) (cacheEntryPath location n v))
        | some content =>
          tryCatch (Metadata.ofCacheEntry g.eapis content) fun e =>
            .error (.badCacheEntry (cacheEntryPath location n v) e)) := by
  unfold Generator.generate
  rw [hformat]
  refine (Scan.reads_readText? _).bind fun content _ => ?_
  cases content with
  | none => exact Scan.reads_throw _
  | some content => exact (Index.reads_recordOf g _).tryCatch fun e => Scan.reads_throw _

theorem existing_generate (g : Generator) (location : String) (n : QualifiedName) (v : Version)
    (t : FileTree) :
    Existing ((g.generate location n v : Scan IndexMemo Metadata).found t) := by
  cases hformat : g.format with
  | ebuild =>
    have hreads : Scan.Reads id (g.generate location n v : Scan IndexMemo Metadata) t _ :=
      reads_generate_tree hformat location n v
    rw [hreads.found_eq]
    refine (existing_content t _).bind fun content => ?_
    cases content with
    | none => exact existing_error nofun
    | some content =>
      dsimp only
      cases Metadata.ofCacheEntry g.eapis content with
      | ok m => exact existing_ok m
      | error e => exact existing_error (e := .badCacheEntry _ e) nofun
  | vdb =>
    have hreads : Scan.Reads id (g.generate location n v : Scan IndexMemo Metadata) t _ :=
      Index.reads_generate_installed hformat location n v
    rw [hreads.found_eq]
    exact (existing_installedKeysIn t _).bind (existing_ofKeys g.eapis)

end PackageCatalog
