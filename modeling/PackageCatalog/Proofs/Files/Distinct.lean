import Mathlib.Data.List.Induction
import PackageCatalog.Change
import PackageCatalog.Proofs.Files.Writing

/-!
# One entry at a place

A file tree has one entry at each place when its places are without repetition.  That is so of the
empty tree, every way to write files leaves it so, and hence it is so of all trees that are written:

    t.entries.keys.Nodup → (step.perform.on t).2.entries.keys.Nodup        (nodup_keys_perform)
    (empty.after steps).entries.keys.Nodup                                 (nodup_keys_after)

The names in a directory of such a tree are then without repetition too (`nodup_namesAt`).
-/

namespace PackageCatalog

namespace FileTree

variable {t : FileTree}

theorem nodup_keys_empty : empty.entries.keys.Nodup := .nil

theorem nodup_keys_put (h : t.entries.keys.Nodup) (place : Place) (entry : FileEntry) :
    (t.put place entry).entries.keys.Nodup :=
  Table.nodup_keys_insert h place entry

theorem nodup_keys_clear (h : t.entries.keys.Nodup) (place : Place) :
    (t.clear place).entries.keys.Nodup :=
  h.sublist (List.filter_sublist.map Prod.fst)

theorem nodup_keys_dropPlace (h : t.entries.keys.Nodup) (place : Place) :
    (t.dropPlace place).entries.keys.Nodup :=
  h.sublist (List.filter_sublist.map Prod.fst)

theorem nodup_namesAt (h : t.entries.keys.Nodup) (dir : Place) : (t.namesAt dir).Nodup := by
  refine (List.mergeSort_perm _ _).nodup_iff.2 (List.pairwise_filterMap.2 (h.imp ?_))
  intro place place' hne name hname name' hname' hsame
  rw [nameIn?_eq_some_iff] at hname hname'
  rw [hname, hname', hsame] at hne
  exact hne rfl

end FileTree

namespace FileM

variable {t : FileTree}

theorem nodup_keys_writeEntry (h : t.entries.keys.Nodup) (path : String) (entry : FileEntry) :
    ((writeEntry path entry).on t).2.entries.keys.Nodup := by
  rcases writeEntry_on path entry t with ⟨hon, -, -⟩ | ⟨e, hon⟩
  · rw [hon]
    exact FileTree.nodup_keys_put h _ entry
  · rw [hon]
    exact h

theorem nodup_keys_makeDir (h : t.entries.keys.Nodup) (path : String) :
    ((makeDir path).on t).2.entries.keys.Nodup := by
  rcases makeDir_on path t with ⟨p, hon, -, -⟩ | ⟨e, hon⟩
  · rw [hon]
    exact FileTree.nodup_keys_put h p .directory
  · rw [hon]
    exact h

theorem nodup_keys_makeDirsFrom (h : t.entries.keys.Nodup) (paths : List String) :
    ((makeDirsFrom paths).on t).2.entries.keys.Nodup := by
  induction paths generalizing t with
  | nil => exact h
  | cons path above ih =>
    by_cases hpath : path = ""
    · subst hpath
      exact h
    · have hfirst := nodup_keys_makeDir h path
      rcases makeDirsFrom_on hpath above t with hon | ⟨-, e, -, hon⟩ | ⟨-, -, hon⟩
      · rw [hon]
        exact hfirst
      · rw [hon]
        exact ih hfirst
      · rw [hon]
        exact nodup_keys_makeDir (ih hfirst) path

theorem nodup_keys_remove (h : t.entries.keys.Nodup) (path : String) :
    ((remove path).on t).2.entries.keys.Nodup := by
  rw [remove_on]
  cases t.find path with
  | error e => exact h
  | ok entry =>
    cases entry with
    | directory =>
      simp only
      split
      case isTrue => exact FileTree.nodup_keys_dropPlace (FileTree.nodup_keys_clear h _) _
      case isFalse => exact FileTree.nodup_keys_clear h _
    | text _ => exact FileTree.nodup_keys_dropPlace h _
    | bytes _ => exact FileTree.nodup_keys_dropPlace h _

end FileM

theorem FileStep.nodup_keys_perform {t : FileTree} (h : t.entries.keys.Nodup) (step : FileStep) :
    (step.perform.on t).2.entries.keys.Nodup := by
  cases step with
  | remove path => exact FileM.nodup_keys_remove h path
  | makeDirs path => exact FileM.nodup_keys_makeDirsFrom h _
  | write path content => exact FileM.nodup_keys_writeEntry h path _

namespace FileTree

/-- The files after some steps, each done whether or not those before it failed. -/
def after (t : FileTree) (steps : List FileStep) : FileTree :=
  steps.foldl (fun u step => (step.perform.on u).2) t

theorem nodup_keys_after (steps : List FileStep) : (empty.after steps).entries.keys.Nodup := by
  unfold after
  induction steps using List.reverseRecOn with
  | nil => exact nodup_keys_empty
  | append_singleton steps step ih =>
    rw [List.foldl_append]
    exact FileStep.nodup_keys_perform ih step

end FileTree

end PackageCatalog
