import PackageCatalog.Proofs.Catalog.Reached
import PackageCatalog.Proofs.Repository.Naming

/-!
# The names of the repositories of a catalogue

In any catalogue and from any keys, what is made has a repository name, and the name can be written
wherever repositories are called by name.  The one exception are source repositories that are called
after their location, if its last component holds a character that may not stand in a name
(`make_validlyNamed_iff`).
-/

namespace PackageCatalog.CatalogM

variable {context : RepositoryContext} {keys : RepositoryKeys} {t : FileTree}
  {kind : RepositoryKind} {r : Repository}

theorem MadeFrom.kind_eq (h : MadeFrom context keys t kind r) : r.kind = kind := by
  cases h <;> rfl

theorem MadeFrom.takesName (h : MadeFrom context keys t kind r) : TakesName t keys kind r.name := by
  cases h with
  | ebuild h => exact EbuildRepository.takesName h
  | installed h => exact InstalledRepository.takesName h
  | installedVirtuals hroot => exact .installedVirtuals hroot
  | virtuals => exact .virtuals

theorem madeFrom_of_make {c c' : Catalog} {number : Nat}
    (h : (make kind keys).on c = (.ok number, c')) :
    ∃ r, c'.repositories[number]? = some r ∧ MadeFrom (CatalogM.context c) keys c.files kind r := by
  obtain ⟨ws, ⟨r, hmade, hon⟩ | ⟨e, hon⟩⟩ := make_cases kind keys c
  · rw [hon] at h
    cases h
    exact ⟨r, by simp, hmade⟩
  · rw [hon] at h
    cases h

/-- What is made has a name that repositories may have, unless it is called after a location that
cannot be presented; and such a name is read wherever it is written. -/
theorem make_validlyNamed_iff {c c' : Catalog} {number : Nat}
    (h : (make kind keys).on c = (.ok number, c')) :
    ∃ r, c'.repositories[number]? = some r ∧ r.kind = kind ∧
      ((∃ name, RepositoryName.parse r.name = .ok name) ↔
        (kind = .ebuild → Presentable c.files keys)) ∧
      ∀ name, RepositoryName.parse r.name = .ok name → name.Citable := by
  obtain ⟨r, hr, hmade⟩ := madeFrom_of_make h
  refine ⟨r, hr, hmade.kind_eq, ?_, fun name _ => name.citable⟩
  rw [RepositoryName.exists_parse_iff]
  exact hmade.takesName.isRepositoryText_iff

/-! ### The location `/bad.name` -/

def dottedKeys : RepositoryKeys := ⟨[("location", "/bad.name")]⟩

/-- With a file that declares another name. -/
def declaringTree : FileTree :=
  ⟨⟨[(["bad.name"], .directory), (["bad.name", "profiles"], .directory),
    (["bad.name", "profiles", "repo_name"], .text "main\n")]⟩⟩

theorem make_validlyNamed_iff_declaringTree :
    ((make .ebuild dottedKeys).on { files := declaringTree }).1 = .ok 0 ∧
    Presentable declaringTree dottedKeys ∧
    ∃ name, RepositoryName.parse "main" = .ok name ∧ name.Citable := by
  have hmade : ((make .ebuild dottedKeys).on { files := declaringTree }).1 = .ok 0 := rfl
  have hpresentable : Presentable declaringTree dottedKeys := by
    intro location h
    cases h.located
    have hdeclared : EbuildRepository.declaredIn? declaringTree "/bad.name" =
        some ⟨"main", by decide⟩ := by decide +kernel
    exact absurd (EbuildRepository.declaredIn?_eq_some_iff.1 hdeclared) (h.undeclared _)
  obtain ⟨r, hr, -, hvalid, hcitable⟩ := make_validlyNamed_iff (Prod.ext hmade rfl)
  obtain ⟨name, hname⟩ := hvalid.2 fun _ => hpresentable
  have hmain : r.name = "main" := by
    cases hr
    decide +kernel
  rw [hmain] at hname
  exact ⟨hmade, hpresentable, name, hname, hcitable name (hmain ▸ hname)⟩

/-- Without the file the repository is called after its location, by what is no repository name: it
cannot be given as one, and no repository of that name can be asked for. -/
theorem not_validlyNamed_dottedLocation :
    ((make .ebuild dottedKeys).on { files := .empty }).1 = .ok 0 ∧
    ((make .ebuild dottedKeys).on { files := .empty }).2.nameOf 0 = "x-bad.name" ∧
    RepositoryName.parse "x-bad.name" = .error (.invalidRepositoryName "x-bad.name") ∧
    ((make .ebuild ⟨[("location", "/bad.name"), ("name", "x-bad.name")]⟩).on
      { files := .empty }).1 = .error (.invalidRepositoryName "x-bad.name") ∧
    Atom.parse? "cat/p::x-bad.name" = none := by
  refine ⟨rfl, ?_, rfl, rfl, ?_⟩
  · decide +kernel
  · decide +kernel

end PackageCatalog.CatalogM
