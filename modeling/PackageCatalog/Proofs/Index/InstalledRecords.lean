import PackageCatalog.Proofs.Index.Entries

/-!
# Records of installed packages

The record of an installed package is made from the files in its directory (`found_generate`), one
for each key.  Two trees hold the same record if they hold the directory and the same files in it,
and no record if there is no directory (`SameDirectory.provideIn_eq`).
-/

namespace PackageCatalog

open Scan (Reads)
open FileTree (placeOf)

variable {σ τ : Type} {view : σ → τ} {t u : FileTree}

/-! ## Reading keys -/

/-- The value of a key with the key, if there is a file for it. -/
def keyPair (t : FileTree) (dir key : String) : Except Error (Option (String × String)) :=
  (Scan.content t (Path.join dir key)).map (Option.map fun value => (key, Text.trimEnd value))

/-- The values of the keys that have a file in the directory. -/
def installedKeysIn (t : FileTree) (dir : String) : Except Error (Table String String) :=
  (installedKeys.mapM (keyPair t dir)).map fun pairs => Table.ofList (pairs.filterMap id)

theorem reads_readInstalledKeys (dir : String) :
    Reads view (readInstalledKeys dir) t (installedKeysIn t dir) := by
  unfold readInstalledKeys installedKeysIn
  rw [bind_pure_comp]
  refine (Reads.mapM installedKeys fun key _ => ?_).map _
  intro shown j hj
  obtain ⟨j', hj', hshown⟩ := (Scan.reads_readText? (Path.join dir key) shown).on_eq hj
  unfold keyPair
  cases hcontent : Scan.content t (Path.join dir key) with
  | error e =>
    rw [hcontent] at hj'
    rw [Scan.on_bind_of_error hj']
    exact ⟨rfl, hshown⟩
  | ok value =>
    rw [hcontent] at hj'
    rw [Scan.on_bind_of_ok hj']
    cases value <;> exact ⟨rfl, hshown⟩

theorem isName_of_mem_installedKeys : ∀ key ∈ installedKeys, Path.IsName key := by
  intro key hkey
  have hname : ∀ key ∈ installedKeys, isNameOf isNameStart isNameStart key.toList = true := by
    decide
  exact Path.isName_of_isNameOf (by decide) (by decide) (hname key hkey)

theorem mapM_congr {α β : Type} {f g : α → Except Error β} (xs : List α)
    (h : ∀ a ∈ xs, f a = g a) : xs.mapM f = xs.mapM g := by
  induction xs with
  | nil => rfl
  | cons a xs ih =>
    rw [List.mapM_cons, List.mapM_cons, h a List.mem_cons_self,
      ih fun b hb => h b (List.mem_cons_of_mem a hb)]

theorem keyPair_congr {dir key : String}
    (h : u.find (Path.join dir key) = t.find (Path.join dir key)) :
    keyPair u dir key = keyPair t dir key := by
  unfold keyPair Scan.content FileTree.readText
  rw [h]

/-- Where there is no directory there is no value. -/
theorem installedKeysIn_of_not_isDirectory {dir : String} (hdir : dir ≠ "")
    (h : ¬ t.isDirectory dir = true) {keys : Table String String}
    (hkeys : installedKeysIn t dir = .ok keys) : keys = Table.empty := by
  obtain ⟨pairs, hpairs, rfl⟩ := Scan.map_eq_ok_iff.1 hkeys
  have hnone : ∀ pair ∈ pairs, pair = none := by
    intro pair hpair
    obtain ⟨key, hkey, hpair⟩ := (Scan.mapM_spec hpairs).2 pair hpair
    obtain ⟨value, hvalue, rfl⟩ := Scan.map_eq_ok_iff.1 hpair
    cases value with
    | none => rfl
    | some content =>
      unfold Scan.content at hvalue
      cases hread : t.readText (Path.join dir key) with
      | ok text =>
        exact absurd (Index.isDirectory_of_find_join hdir (isName_of_mem_installedKeys key hkey)
          (FileTree.readText_eq_ok_iff.1 hread)) h
      | error problem =>
        rw [hread] at hvalue
        cases problem <;> cases hvalue
  have hnil : pairs.filterMap id = [] := List.filterMap_eq_nil_iff.2 hnone
  rw [hnil]
  rfl

/-! ## Records -/

theorem ofKeys_empty_ne_ok (eapis : Option EapiTable) (m : Metadata) :
    Metadata.ofKeys eapis Table.empty ≠ .ok m := by
  intro h
  unfold Metadata.ofKeys at h
  obtain ⟨defaults, -, h⟩ := Scan.bind_eq_ok_iff.1 h
  cases h

namespace Index

variable {x : Index}

theorem reads_generate_installed {g : Generator} (hformat : g.format = .vdb) (location : String)
    (n : QualifiedName) (v : Version) : Reads view (g.generate location n v) t
      (installedKeysIn t (installedPath location n v) >>= Metadata.ofKeys g.eapis) := by
  unfold Generator.generate
  rw [hformat]
  exact (reads_readInstalledKeys _).bind fun keys _ => reads_recordOf g keys

/-- The record of an installed package is made from the files in its directory. -/
theorem found_generate (hformat : x.generator.format = .vdb) (n : QualifiedName) (v : Version) :
    (x.generator.generate x.location n v : Scan IndexMemo Metadata).found t =
      installedKeysIn t (installedPath x.location n v) >>= Metadata.ofKeys x.generator.eapis :=
  have hreads : Reads id (x.generator.generate x.location n v : Scan IndexMemo Metadata) t _ :=
    reads_generate_installed hformat x.location n v
  hreads.found_eq

/-- What a record says is provided; a package version without a record provides nothing. -/
def provideOf : Except Error Metadata → List QualifiedName
  | .ok m => m.provide
  | .error _ => []

/-- What a package version provides, by the files. -/
def provideIn (x : Index) (t : FileTree) (n : QualifiedName) (v : Version) : List QualifiedName :=
  provideOf ((x.generator.generate x.location n v : Scan IndexMemo Metadata).found t)

theorem isName_entryName (p : PackageName) (v : Version) : Path.IsName (entryName p v) := by
  have h := isNameOf_entryName p v .vdb
  rw [show EntryFormat.vdb.extension = "" from rfl, String.append_empty] at h
  exact Path.isName_of_isNameOf (by decide) (by decide) h

theorem installedPath_ne_empty (location : String) (n : QualifiedName) (v : Version) :
    installedPath location n v ≠ "" :=
  Path.join_ne_empty (isName_entryName n.package v)

/-- Nothing in the directory of a package version differs. -/
structure SameDirectory (x : Index) (t u : FileTree) (n : QualifiedName) (v : Version) : Prop where
  present : u.isDirectory (installedPath x.location n v) =
    t.isDirectory (installedPath x.location n v)
  inside : ∀ place, placeOf (installedPath x.location n v) <+: place → u.get? place = t.get? place

theorem SameDirectory.provideIn_eq (hformat : x.generator.format = .vdb) {n : QualifiedName}
    {v : Version} (h : SameDirectory x t u n v) : x.provideIn u n v = x.provideIn t n v := by
  have hne := installedPath_ne_empty x.location n v
  unfold provideIn
  rw [found_generate hformat, found_generate hformat]
  by_cases hdir : t.isDirectory (installedPath x.location n v) = true
  · have hpairs : installedKeys.mapM (keyPair u (installedPath x.location n v)) =
        installedKeys.mapM (keyPair t (installedPath x.location n v)) := by
      refine mapM_congr installedKeys fun key hkey => keyPair_congr ?_
      exact FileTree.find_join_congr hne (isName_of_mem_installedKeys key hkey) hdir
        (h.present.trans hdir) (h.inside _ (List.prefix_append _ _))
    rw [installedKeysIn, hpairs]
    rfl
  · have hnothing : ∀ t : FileTree, ¬ t.isDirectory (installedPath x.location n v) = true →
        provideOf (installedKeysIn t (installedPath x.location n v) >>=
          Metadata.ofKeys x.generator.eapis) = [] := by
      intro t hdir
      cases hfound : installedKeysIn t (installedPath x.location n v) >>=
          Metadata.ofKeys x.generator.eapis with
      | error e => rfl
      | ok m =>
        obtain ⟨keys, hkeys, hm⟩ := Scan.bind_eq_ok_iff.1 hfound
        rw [installedKeysIn_of_not_isDirectory hne hdir hkeys] at hm
        exact absurd hm (ofKeys_empty_ne_ok _ m)
    rw [hnothing t hdir, hnothing u (by rwa [h.present])]

end Index

end PackageCatalog
