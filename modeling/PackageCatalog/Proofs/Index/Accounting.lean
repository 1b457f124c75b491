import PackageCatalog.Proofs.Index.Recording
import PackageCatalog.Proofs.Index.Sticky

/-!
# Accounts of what is recorded

A level of an index is looked through once: then it is known, and stays so.  Hence the diagnostics
are those of the levels that were looked through, each level once, whatever the index was asked:

    Keeps (Accounted x t) (x.reply q) t                                      (reply_accounted)

The categories are the exception.  They are known only when all lists were read, so that if one of
them cannot be read, the others are read for every question; this is why nothing must be recorded
for them before (`Interrupted`).
-/

namespace PackageCatalog.Index

open Scan (Keeps)

variable {x : Index} {t : FileTree} {memo memo' : IndexMemo} {α β : Type}

/-! ## Levels that were looked through -/

def IsDone (x : Index) (memo : IndexMemo) : Level → Prop
  | .categories => memo.categories.isSome
  | .packages c => memo.isLoaded c
  | .versions n => x.layout = .tree ∧ memo.versions.contains n = true

theorem Retains.isDone (h : Retains x memo memo') (l : Level) (hl : x.IsDone memo l) :
    x.IsDone memo' l := by
  cases l with
  | categories =>
    obtain ⟨table, htable⟩ := Option.isSome_iff_exists.1 hl
    obtain ⟨table', htable', -⟩ := Option.map_eq_some_iff.1 (h.keys table htable)
    exact Option.isSome_of_eq_some htable'
  | packages c => exact (h.loaded c hl).1
  | versions n =>
    obtain ⟨htree, hn⟩ := hl
    obtain ⟨vs, hvs⟩ := Option.isSome_iff_exists.1 hn
    exact ⟨htree, Option.isSome_of_eq_some (h.versions htree n vs hvs)⟩

/-- What was looked through and read before still is. -/
structure Past (x : Index) (memo memo' : IndexMemo) : Prop where
  done : ∀ l, x.IsDone memo l → x.IsDone memo' l
  metadata : ∀ key m, memo.metadata.get? key = some m → memo'.metadata.get? key = some m

theorem Past.refl (memo : IndexMemo) : Past x memo memo := ⟨fun _ h => h, fun _ _ h => h⟩

theorem Past.trans {memo'' : IndexMemo} (h : Past x memo memo') (h' : Past x memo' memo'') :
    Past x memo memo'' :=
  ⟨fun l hl => h'.done l (h.done l hl), fun key m hm => h'.metadata key m (h.metadata key m hm)⟩

theorem Retains.past (h : Retains x memo memo') : Past x memo memo' := ⟨h.isDone, h.metadata⟩

theorem past_addPackage (memo : IndexMemo) (n : QualifiedName) :
    Past x memo (memo.addPackage n) := by
  refine ⟨fun l hl => ?_, fun _ _ h => h⟩
  cases l <;> exact hl

/-- The diagnostics are those of levels that were looked through, each level once. -/
structure Accounted (x : Index) (t : FileTree) (memo : IndexMemo) : Prop where
  sound : Sound x t memo
  levels : ∃ ls : List Level, ls.Nodup ∧ (∀ l ∈ ls, x.IsDone memo l) ∧
    memo.diagnostics = ls.flatMap (x.errorsAt t)

theorem accounted_empty : Accounted x t {} := ⟨sound_empty, [], .nil, nofun, rfl⟩

/-- Nothing new is recorded. -/
theorem Accounted.quiet (h : Accounted x t memo) (hs : Sound x t memo') (hpast : Past x memo memo')
    (hsame : memo'.diagnostics = memo.diagnostics) : Accounted x t memo' := by
  obtain ⟨ls, hls, hall, hdiagnostics⟩ := h.levels
  exact ⟨hs, ls, hls, fun l hl => hpast.done l (hall l hl), hsame.trans hdiagnostics⟩

/-- One more level is looked through. -/
theorem Accounted.note (h : Accounted x t memo) (hs : Sound x t memo') (hpast : Past x memo memo')
    {l : Level} (hnew : ¬ x.IsDone memo l) (hl : x.IsDone memo' l)
    (hmore : memo'.diagnostics = memo.diagnostics ++ x.errorsAt t l) : Accounted x t memo' := by
  obtain ⟨ls, hls, hall, hdiagnostics⟩ := h.levels
  refine ⟨hs, ls ++ [l], ?_, ?_, ?_⟩
  · rw [List.nodup_append]
    refine ⟨hls, List.nodup_singleton l, fun l' hl' l'' hl'' => ?_⟩
    rintro rfl
    rw [List.mem_singleton.1 hl''] at hl'
    exact hnew (hall l hl')
  · intro l' hl'
    rcases List.mem_append.1 hl' with hl' | hl'
    · exact hpast.done l' (hall l' hl')
    · rwa [List.mem_singleton.1 hl']
  · rw [hmore, hdiagnostics, List.flatMap_append, List.flatMap_singleton]

/-! ## Every step accounts for what it records -/

theorem needCategories_keeps : Keeps (Sound x t) x.needCategories t := by
  intro j hj
  obtain ⟨j', hj', hs, -⟩ := needCategories_on hj
  rw [hj']
  exact hs

theorem needPackages_keeps (c : Category) : Keeps (Sound x t) (x.needPackages c) t := by
  intro j hj
  obtain ⟨j', hj', hs, -⟩ := needPackages_on hj c
  rw [hj']
  exact hs

theorem needVersions_keeps (n : QualifiedName) : Keeps (Sound x t) (x.needVersions n) t := by
  intro j hj
  obtain ⟨j', hj', hs, -⟩ := needVersions_on hj n
  rw [hj']
  exact hs

theorem needCategories_past (j : Journal IndexMemo) :
    Past x j.memo (x.needCategories.on t j).2.memo :=
  (needCategories_looked j.memo j .refl).learned.retains.past

theorem loadPackages_past {c : Category} {j : Journal IndexMemo}
    (hflag : j.memo.categories.bind (·.get? c) = some false) :
    Past x j.memo ((x.loadPackages c).on t j).2.memo := by
  rcases loadPackages_cases (x := x) (t := t) hflag with ⟨e, j', hj', hknow, -⟩ | ⟨ps, j', hj', h⟩
  · rw [hj']
    exact (Looks.nothing (x := x) (t := t) hknow).retains.past
  · rw [hj']
    exact (Looks.packages h).retains.past

theorem needPackages_past (c : Category) (j : Journal IndexMemo) :
    Past x (x.needCategories.on t j).2.memo ((x.needPackages c).on t j).2.memo := by
  rw [needPackages_eq, Scan.on_bind]
  cases (x.needCategories.on t j).1 with
  | error e => exact .refl _
  | ok u =>
    simp only
    rw [Scan.on_bind_of_ok (Scan.on_memo t _)]
    split
    case isTrue hflag => exact loadPackages_past hflag
    case isFalse => exact .refl _

/-- As long as the categories are unknown, they are looked for. -/
theorem needCategories_records {r : Except Error (Table Category Bool)} {es : List Error}
    (hrecords : Records x.scanCategories t r es) {j : Journal IndexMemo}
    (hnone : j.memo.categories = none) :
    (x.needCategories.on t j).2.memo.diagnostics = j.memo.diagnostics ++ es := by
  obtain ⟨j', hj', hes⟩ := hrecords j
  unfold needCategories
  rw [Scan.on_bind_of_ok (Scan.on_memo t j), hnone]
  simp only [Option.isNone_none, ↓reduceIte]
  cases r with
  | error e =>
    rw [Scan.on_bind_of_error hj']
    exact hes
  | ok found =>
    rw [Scan.on_bind_of_ok hj']
    exact hes

/-- Looking for the categories fails and records nothing, or they become known. -/
theorem needCategories_cases (hn : ¬ x.Interrupted t) {j : Journal IndexMemo}
    (hj : Sound x t j.memo) (hnone : j.memo.categories = none) :
    (x.needCategories.on t j).2.memo.diagnostics = j.memo.diagnostics ∨
    (x.listedCategories t).isOk = true ∧
      (x.needCategories.on t j).2.memo.categories.isSome = true ∧
      (x.needCategories.on t j).2.memo.diagnostics =
        j.memo.diagnostics ++ x.errorsAt t .categories := by
  cases hlisted : x.listedCategories t with
  | error e =>
    have hsame := needCategories_records (records_of_not_interrupted hlisted hn) hnone
    rw [List.append_nil] at hsame
    exact .inl hsame
  | ok found =>
    obtain ⟨j', hj', -, -, -, hsome⟩ := needCategories_on hj
    have hmore := needCategories_records (records_scanCategories hlisted) hnone
    rw [hj'] at hmore ⊢
    exact .inr ⟨rfl, hsome (by rw [hlisted]; rfl), hmore⟩

theorem needCategories_accounted (hn : ¬ x.Interrupted t) :
    Keeps (Accounted x t) x.needCategories t := by
  intro j hj
  have hs := needCategories_keeps j hj.sound
  have hpast := needCategories_past (x := x) (t := t) j
  cases hc : j.memo.categories with
  | some table =>
    rw [needCategories_of_known hc]
    exact hj
  | none =>
    rcases needCategories_cases hn hj.sound hc with hsame | ⟨-, hsome, hmore⟩
    · exact hj.quiet hs hpast hsame
    · refine hj.note (l := .categories) hs hpast (fun hknown => ?_) hsome hmore
      rw [IsDone, hc] at hknown
      cases hknown

theorem loadPackages_accounted {c : Category} {j : Journal IndexMemo} (hj : Accounted x t j.memo)
    (hflag : j.memo.categories.bind (·.get? c) = some false) :
    Accounted x t ((x.loadPackages c).on t j).2.memo := by
  obtain ⟨table, htable, hunloaded⟩ := Option.bind_eq_some_iff.1 hflag
  obtain ⟨j₁, hj₁, hs, -⟩ := loadPackages_on hj.sound htable hunloaded
  obtain ⟨r, hrecords⟩ := records_loadPackages (x := x) (t := t) c
  obtain ⟨j₂, hj₂, hes⟩ := hrecords j
  obtain ⟨-, rfl⟩ := Prod.mk.inj (hj₁.symm.trans hj₂)
  have hpast := loadPackages_past (x := x) (t := t) hflag
  rw [hj₁] at hpast ⊢
  rcases loadPackages_cases (x := x) (t := t) hflag with ⟨e, j₂, hj₂, -, hdirs⟩ | ⟨ps, j₂, hj₂, h⟩
  · obtain ⟨-, rfl⟩ := Prod.mk.inj (hj₁.symm.trans hj₂)
    rw [errorsAt_packages_of_error hdirs, List.append_nil] at hes
    exact hj.quiet hs hpast hes
  · obtain ⟨-, rfl⟩ := Prod.mk.inj (hj₁.symm.trans hj₂)
    exact hj.note (l := .packages c) hs hpast h.not_isLoaded ((h.isLoaded c).2 (.inl rfl)) hes

theorem needPackages_accounted (hn : ¬ x.Interrupted t) (c : Category) :
    Keeps (Accounted x t) (x.needPackages c) t := by
  rw [needPackages_eq]
  refine (needCategories_accounted hn).bind fun _ j hj => ?_
  rw [Scan.on_bind_of_ok (Scan.on_memo t j)]
  split
  case isTrue hflag => exact loadPackages_accounted hj hflag
  case isFalse => exact hj

/-- To look for a package in a tree is to look for the categories, and perhaps to remember it. -/
theorem lookupPackage_tree (htree : x.layout = .tree) (n : QualifiedName)
    (j : Journal IndexMemo) :
    ((x.lookupPackage n).on t j).2.memo = (x.needCategories.on t j).2.memo ∨
      ((x.lookupPackage n).on t j).2.memo = (x.needCategories.on t j).2.memo.addPackage n := by
  rw [lookupPackage_eq, Scan.on_bind]
  cases hneed : (x.needCategories.on t j).1 with
  | error e => exact .inl rfl
  | ok u =>
    simp only
    rw [Scan.on_bind_of_ok (Scan.on_memo t _)]
    split
    case h_1 => exact .inl rfl
    case h_2 =>
      split
      case isTrue => exact .inl rfl
      case isFalse =>
        unfold probePackage
        rw [htree]
        simp only
        rw [Scan.on_bind_of_ok (Scan.on_isDirectory (x.packageDir n) t _)]
        cases t.isDirectory (x.packageDir n) with
        | true => exact .inr rfl
        | false => exact .inl rfl

/-- To look for a package in an installed-package database is to look through its category. -/
theorem lookupPackage_installed (hinstalled : x.layout = .installed) (n : QualifiedName)
    {j : Journal IndexMemo} (hj : Sound x t j.memo) :
    ((x.lookupPackage n).on t j).2 = ((x.needPackages n.category).on t j).2 := by
  have hs := needCategories_keeps j hj
  rw [lookupPackage_eq, needPackages_eq]
  obtain ⟨r, j₁, hneed⟩ : ∃ r j₁, x.needCategories.on t j = (r, j₁) := ⟨_, _, rfl⟩
  rw [hneed] at hs
  cases r with
  | error e => rw [Scan.on_bind_of_error hneed, Scan.on_bind_of_error hneed]
  | ok u =>
    rw [Scan.on_bind_of_ok hneed, Scan.on_bind_of_ok hneed, Scan.on_bind_of_ok (Scan.on_memo t j₁),
      Scan.on_bind_of_ok (Scan.on_memo t j₁)]
    cases hflag : j₁.memo.categories.bind (·.get? n.category) with
    | none => rfl
    | some loaded =>
      cases loaded with
      | true => rfl
      | false =>
        have hunknown : j₁.memo.knowsPackage n = false := by
          refine Bool.eq_false_iff.2 fun hknown => ?_
          have hloaded := hs.isLoaded_of_knows hinstalled hknown
          rw [IndexMemo.isLoaded, hflag] at hloaded
          cases hloaded
        obtain ⟨table, htable, -⟩ := Option.bind_eq_some_iff.1 hflag
        have hneed₁ : (x.needPackages n.category).on t j₁ =
            (x.loadPackages n.category).on t j₁ := by
          rw [needPackages_eq, Scan.on_bind_of_ok (needCategories_of_known htable),
            Scan.on_bind_of_ok (Scan.on_memo t j₁), hflag, if_pos rfl]
        simp only
        rw [hunknown, if_neg (by decide), if_pos trivial]
        unfold probePackage
        rw [hinstalled]
        simp only
        rw [Scan.on_bind, hneed₁]
        cases ((x.loadPackages n.category).on t j₁).1 <;> rfl

theorem lookupPackage_accounted (hn : ¬ x.Interrupted t) (n : QualifiedName) :
    Keeps (Accounted x t) (x.lookupPackage n) t := by
  intro j hj
  cases hlayout : x.layout with
  | installed =>
    rw [lookupPackage_installed hlayout n hj.sound]
    exact needPackages_accounted hn n.category j hj
  | tree =>
    have hs := lookupPackage_keeps n j hj.sound
    have hneed := needCategories_accounted hn j hj
    rcases lookupPackage_tree (t := t) hlayout n j with hmemo | hmemo
    · rw [hmemo]
      exact hneed
    · rw [hmemo] at hs ⊢
      exact hneed.quiet hs (past_addPackage _ n) rfl

theorem readVersions_done {n : QualifiedName} {j j' : Journal IndexMemo}
    (h : (x.readVersions n).on t j = (.ok (), j')) : j'.memo.versions.contains n = true := by
  obtain ⟨entries, j₁, -, h⟩ := Scan.on_bind_eq_ok h
  obtain ⟨vs, j₂, -, h⟩ := Scan.on_bind_eq_ok h
  cases h
  rw [Table.contains, Table.get?_insert, if_pos rfl]
  rfl

/-- A package that is found is there. -/
theorem holds_of_lookup {n : QualifiedName} {j j' : Journal IndexMemo} (hj : Sound x t j.memo)
    (h : (x.lookupPackage n).on t j = (.ok true, j')) : x.holds t n = .ok true := by
  obtain ⟨r, j₁, hj₁, -, -, hr⟩ := lookupPackage_finds hj n
  obtain ⟨rfl, -⟩ := Prod.mk.inj (h.symm.trans hj₁)
  rcases hr with hr | ⟨hr, -⟩
  · exact hr.symm
  · cases hr

theorem readVersions_accounted (htree : x.layout = .tree) {n : QualifiedName}
    (hholds : x.holds t n = .ok true) {j : Journal IndexMemo} (hj : Accounted x t j.memo)
    (hnew : j.memo.versions.get? n = none) :
    Accounted x t ((x.readVersions n).on t j).2.memo := by
  have hlooked := readVersions_looked (t := t) htree .refl hnew
  obtain ⟨vs, j₁, -, hj₁, hs, -⟩ := readVersions_on hj.sound htree hholds
  obtain ⟨j₂, hj₂, hes⟩ := records_readVersions (isDirectory_of_holds htree hholds) j
  obtain ⟨-, rfl⟩ := Prod.mk.inj (hj₁.symm.trans hj₂)
  rw [hj₁] at hlooked ⊢
  refine hj.note (l := .versions n) hs hlooked.learned.retains.past ?_
    ⟨htree, readVersions_done hj₁⟩ hes
  rintro ⟨-, hknown⟩
  rw [Table.contains, hnew] at hknown
  cases hknown

theorem needVersions_accounted (hn : ¬ x.Interrupted t) (n : QualifiedName) :
    Keeps (Accounted x t) (x.needVersions n) t := by
  rw [needVersions_eq]
  cases hlayout : x.layout with
  | installed => exact (lookupPackage_accounted hn n).discard
  | tree =>
    intro j hj
    simp only
    rw [Scan.on_bind_of_ok (Scan.on_memo t j)]
    split
    case isTrue => exact hj
    case isFalse hnew =>
      have hnone : j.memo.versions.get? n = none := by
        simpa [Table.contains] using hnew
      have hlookup := lookupPackage_accounted hn n j hj
      have hversions := lookupPackage_keeps_versions (t := t) hlayout n j.memo.versions j rfl
      rw [Scan.on_bind]
      cases hfound : ((x.lookupPackage n).on t j).1 with
      | error e => exact hlookup
      | ok present =>
        cases present with
        | false => exact hlookup
        | true =>
          have hholds := holds_of_lookup hj.sound (Prod.ext hfound rfl)
          exact readVersions_accounted hlayout hholds hlookup (by rw [hversions, hnone])

/-! ## Answers leave no trace -/

/-- Scans that do the same to a journal and fail together, whatever they answer. -/
def SameWay (t : FileTree) (s : Scan IndexMemo α) (s' : Scan IndexMemo β) : Prop :=
  ∀ j, (s'.on t j).2 = (s.on t j).2 ∧ (s'.on t j).1.isOk = (s.on t j).1.isOk

theorem SameWay.keeps {I : IndexMemo → Prop} {s : Scan IndexMemo α} {s' : Scan IndexMemo β}
    (h : SameWay t s s') (hs : Keeps I s t) : Keeps I s' t := by
  intro j hj
  rw [(h j).1]
  exact hs j hj

theorem SameWay.symm {s : Scan IndexMemo α} {s' : Scan IndexMemo β} (h : SameWay t s s') :
    SameWay t s' s := fun j => ⟨(h j).1.symm, (h j).2.symm⟩

theorem SameWay.trans {γ : Type} {s : Scan IndexMemo α} {s' : Scan IndexMemo β}
    {s'' : Scan IndexMemo γ} (h : SameWay t s s') (h' : SameWay t s' s'') : SameWay t s s'' :=
  fun j => ⟨(h' j).1.trans (h j).1, (h' j).2.trans (h j).2⟩

theorem sameWay_map (s : Scan IndexMemo α) (g : α → β) : SameWay t s (g <$> s) := by
  intro j
  rw [Scan.on_map]
  cases (s.on t j).1 <;> exact ⟨rfl, rfl⟩

theorem sameWay_answer (s : Scan IndexMemo Unit) (g : IndexMemo → β) :
    SameWay t s (s >>= fun _ => Scan.memo >>= fun memo => pure (g memo)) := by
  intro j
  rw [Scan.on_bind]
  cases (s.on t j).1 <;> exact ⟨rfl, rfl⟩

theorem sameWay_hasVersion (n : QualifiedName) (v : Version) :
    SameWay t (x.needVersions n) (x.hasVersion n v) := by
  unfold hasVersion
  rw [bind_pure_comp]
  exact (sameWay_answer (x.needVersions n) (·.versionsOf n)).trans (sameWay_map _ _)

theorem past_insertMetadata {key : QualifiedName × Version} (h : memo.metadata.get? key = none)
    (m : Metadata) : Past x memo { memo with metadata := memo.metadata.insert key m } := by
  refine ⟨fun l hl => ?_, fun key' m' hm' => ?_⟩
  · cases l <;> exact hl
  · rw [Table.get?_insert, if_neg]
    · exact hm'
    · rintro rfl
      rw [h] at hm'
      cases hm'

/-- To read a record is to look for the versions, and perhaps to remember the record. -/
theorem metadata_past {n : QualifiedName} {v : Version} {j : Journal IndexMemo}
    (hnew : j.memo.metadata.get? (n, v) = none) :
    Past x ((x.needVersions n).on t j).2.memo ((x.metadata n v).on t j).2.memo ∧
      ((x.metadata n v).on t j).2.memo.diagnostics =
        ((x.needVersions n).on t j).2.memo.diagnostics := by
  have hmetadata := (hasVersion_looked (x := x) (t := t) j.memo n v j .refl).metadata_eq
  rw [← ((sameWay_hasVersion n v) j).1]
  unfold metadata
  rw [Scan.on_bind_of_ok (Scan.on_memo t j), hnew]
  simp only
  rw [Scan.on_bind]
  cases hfound : ((x.hasVersion n v).on t j).1 with
  | error e => exact ⟨.refl _, rfl⟩
  | ok present =>
    cases present with
    | false => exact ⟨.refl _, rfl⟩
    | true =>
      obtain ⟨r, hr⟩ : Scan.IsReader id (x.generator.generate x.location n v) t :=
        isReader_generate x.generator x.location n v
      obtain ⟨j₁, hj₁, hsame⟩ := hr.on_eq ((x.hasVersion n v).on t j).2
      simp only [id] at hsame
      simp only [↓reduceIte]
      rw [← hsame] at hmetadata ⊢
      cases r with
      | error e =>
        rw [Scan.on_bind_of_error hj₁]
        exact ⟨.refl _, rfl⟩
      | ok m =>
        rw [Scan.on_bind_of_ok hj₁]
        exact ⟨past_insertMetadata (by rw [hmetadata, hnew]) m, rfl⟩

theorem metadata_accounted (hn : ¬ x.Interrupted t) (n : QualifiedName) (v : Version) :
    Keeps (Accounted x t) (x.metadata n v) t := by
  intro j hj
  have hs := (metadata_yields n v).keeps j hj.sound
  cases hm : j.memo.metadata.get? (n, v) with
  | some m =>
    rw [metadata_of_known hm]
    exact hj
  | none =>
    obtain ⟨hpast, hsame⟩ := metadata_past (x := x) (t := t) hm
    exact (needVersions_accounted hn n j hj).quiet hs hpast hsame

/-- Whatever an index is asked, it accounts for what it records. -/
theorem reply_accounted (hn : ¬ x.Interrupted t) (q : Query α) :
    Keeps (Accounted x t) (x.reply q) t := by
  have hcategories : Keeps (Accounted x t) x.categories t :=
    (sameWay_answer _ _).keeps (needCategories_accounted hn)
  have hpackages (c : Category) : Keeps (Accounted x t) (x.packages c) t :=
    (sameWay_answer _ _).keeps (needPackages_accounted hn c)
  cases q with
  | ask q =>
    cases q with
    | hasCategory c => exact (sameWay_answer _ _).keeps (needCategories_accounted hn)
    | categories => exact hcategories
    | packages c => exact hpackages c
    | hasPackage n => exact lookupPackage_accounted hn n
    | versions n => exact (sameWay_answer _ _).keeps (needVersions_accounted hn n)
    | hasVersion n v => exact (sameWay_hasVersion n v).keeps (needVersions_accounted hn n)
    | metadata n v => exact metadata_accounted hn n v
    | containing p =>
      exact hcategories.bind fun cs => .filterM cs fun c => lookupPackage_accounted hn ⟨c, p⟩
  | allPackages =>
    exact hcategories.bind fun cs => (Keeps.mapM cs hpackages).bind fun _ => Scan.keeps_pure _

end PackageCatalog.Index
