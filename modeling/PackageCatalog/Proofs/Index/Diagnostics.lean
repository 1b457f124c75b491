import Mathlib.Data.List.Forall2
import PackageCatalog.Proofs.Index.Accounting

/-!
# Diagnosed once

An index is asked one question after another while the files stay as they are.  What it records are
offences, none of them twice, and to ask again what was asked before adds nothing:

    x.OnceDiagnosed t ↔
      ¬ x.Interrupted t ∧ ¬ ((∀ dir ∈ x.sources, ReadsList t dir) ∧ x.Shares t)  (onceDiagnosed_iff)

The diagnostics are those of the levels that were looked through (`Accounted`), and a level that was
looked through is not looked through again.  But the categories count as looked through only when
all lists were read: if one of them cannot be read, every question reads the others again.
-/

namespace PackageCatalog.Index

open Scan (Keeps Reads Yields)

variable {x : Index} {t : FileTree} {memo memo' : IndexMemo} {α β : Type}

/-! ## Runs over the same files -/

/-- What an index may remember after questions while the files stay as they are. -/
inductive Onward (x : Index) (t : FileTree) (memo : IndexMemo) : IndexMemo → Prop where
  | now : Onward x t memo memo
  | asked {α : Type} {memo' : IndexMemo} (q : Query α) (h : Onward x t memo memo') :
      Onward x t memo ((x.reply q).run t memo').2.1

/-- The recorded errors are those of offences, each once, and a question that was asked before
records nothing. -/
def OnceDiagnosed (x : Index) (t : FileTree) : Prop :=
  ∀ memo, Onward x t {} memo →
    (∃ items : List Offence, items.Nodup ∧ List.Forall₂ (Offends x t) items memo.diagnostics) ∧
    ∀ (α : Type) (q : Query α) (later : IndexMemo),
      Onward x t ((x.reply q).run t memo).2.1 later →
        ((x.reply q).run t later).2.1.diagnostics = later.diagnostics

theorem Onward.accounted (hn : ¬ x.Interrupted t) (h : Onward x t memo memo')
    (hstart : Accounted x t memo) : Accounted x t memo' := by
  induction h with
  | now => exact hstart
  | asked q _ ih => exact reply_accounted hn q ⟨_, []⟩ ih

theorem Onward.sound (h : Onward x t memo memo') (hstart : Sound x t memo) : Sound x t memo' := by
  induction h with
  | now => exact hstart
  | asked q _ ih => exact reply_keeps q ⟨_, []⟩ ih

/-- What is remembered after a question is what is known from then on. -/
theorem Onward.past (h : Onward x t memo memo') : Past x memo memo' := by
  induction h with
  | now => exact .refl memo
  | asked q _ ih => exact ih.trans (reply_learned _ q ⟨_, []⟩ .refl).retains.past

/-! ## Asked again -/

/-- After the scan was done, and whatever was done since, to do it again records nothing. -/
def Replays (x : Index) (t : FileTree) (s : Scan IndexMemo α) : Prop :=
  ∀ j j', Sound x t j.memo → Sound x t j'.memo → Past x (s.on t j).2.memo j'.memo →
    (s.on t j').2.memo.diagnostics = j'.memo.diagnostics

/-- A scan that always fails or never does, and records nothing when it is done again. -/
structure Steady (x : Index) (t : FileTree) (s : Scan IndexMemo α) : Prop where
  keeps : Keeps (Sound x t) s t
  past : ∀ j, Past x j.memo (s.on t j).2.memo
  ends : ∃ ok, ∀ j, Sound x t j.memo → (s.on t j).1.isOk = ok
  replays : Replays x t s

theorem steady_pure (a : α) : Steady x t (pure a) where
  keeps := Scan.keeps_pure a
  past _ := .refl _
  ends := ⟨true, fun _ _ => rfl⟩
  replays _ _ _ _ _ := rfl

theorem SameWay.steady {s : Scan IndexMemo α} {s' : Scan IndexMemo β} (h : SameWay t s s')
    (hs : Steady x t s) : Steady x t s' := by
  obtain ⟨ok, hends⟩ := hs.ends
  refine ⟨h.keeps hs.keeps, fun j => ?_, ⟨ok, fun j hj => (h j).2.trans (hends j hj)⟩,
    fun j j' hj hj' hpast => ?_⟩
  · rw [(h j).1]
    exact hs.past j
  · rw [(h j).1] at hpast
    rw [(h j').1]
    exact hs.replays j j' hj hj' hpast

theorem Steady.isOk_eq {s : Scan IndexMemo α} (h : Steady x t s) {j j' : Journal IndexMemo}
    (hj : Sound x t j.memo) (hj' : Sound x t j'.memo) :
    (s.on t j).1.isOk = (s.on t j').1.isOk := by
  obtain ⟨ok, hends⟩ := h.ends
  rw [hends j hj, hends j' hj']

/-- Scans one after the other, where it makes no difference what the first one answers. -/
theorem Steady.bind {s : Scan IndexMemo α} {f : α → Scan IndexMemo β} (hs : Steady x t s)
    (hf : ∀ a, Steady x t (f a))
    (hsame : ∀ j j' a a', Sound x t j.memo → Sound x t j'.memo → (s.on t j).1 = .ok a →
      (s.on t j').1 = .ok a' → SameWay t (f a) (f a')) : Steady x t (s >>= f) where
  keeps := hs.keeps.bind fun a => (hf a).keeps
  past := by
    intro j
    rw [Scan.on_bind]
    cases (s.on t j).1 with
    | error e => exact hs.past j
    | ok a => exact (hs.past j).trans ((hf a).past _)
  ends := by
    refine ⟨((s >>= f).on t ⟨{}, []⟩).1.isOk, fun j hj => ?_⟩
    have hempty : Sound x t (Journal.memo ⟨{}, []⟩) := sound_empty
    have hok := hs.isOk_eq hj hempty
    rw [Scan.on_bind, Scan.on_bind]
    cases h : (s.on t j).1 with
    | error e =>
      cases h₀ : (s.on t ⟨{}, []⟩).1 with
      | error e₀ => rfl
      | ok a₀ =>
        rw [h, h₀] at hok
        cases hok
    | ok a =>
      cases h₀ : (s.on t ⟨{}, []⟩).1 with
      | error e₀ =>
        rw [h, h₀] at hok
        cases hok
      | ok a₀ =>
        have hway := (hsame _ _ a₀ a hempty hj h₀ h (s.on t j).2).2
        exact hway.trans ((hf a₀).isOk_eq (hs.keeps j hj) (hs.keeps _ hempty))
  replays := by
    intro j j' hj hj' hpast
    have hok := hs.isOk_eq hj hj'
    rw [Scan.on_bind] at hpast ⊢
    cases h : (s.on t j).1 with
    | error e =>
      cases h' : (s.on t j').1 with
      | error e' =>
        rw [h] at hpast
        exact hs.replays j j' hj hj' hpast
      | ok a' =>
        rw [h, h'] at hok
        cases hok
    | ok a =>
      cases h' : (s.on t j').1 with
      | error e' =>
        rw [h, h'] at hok
        cases hok
      | ok a' =>
        rw [h] at hpast
        simp only at hpast ⊢
        have hfirst := hs.replays j j' hj hj' (((hf a).past _).trans hpast)
        rw [(hsame j j' a a' hj hj' h h' _).1, (hf a).replays _ _ (hs.keeps j hj) (hs.keeps j' hj')
          (hpast.trans (hs.past j')), hfirst]

theorem Steady.filterM {p : α → Scan IndexMemo Bool} (as : List α) (h : ∀ a, Steady x t (p a)) :
    Steady x t (as.filterM p) := by
  induction as with
  | nil => exact steady_pure []
  | cons a as ih =>
    rw [Scan.filterM_cons]
    refine (h a).bind (fun keep => ?_) fun _ _ keep keep' _ _ _ _ => ?_
    · rw [bind_pure_comp]
      exact (sameWay_map _ _).steady ih
    · rw [bind_pure_comp, bind_pure_comp]
      exact (sameWay_map _ _).symm.trans (sameWay_map _ _)

theorem Steady.mapM {f : α → Scan IndexMemo β} (as : List α) (h : ∀ a, Steady x t (f a)) :
    Steady x t (as.mapM f) := by
  induction as with
  | nil => exact steady_pure []
  | cons a as ih =>
    rw [List.mapM_cons]
    refine (h a).bind (fun b => ?_) fun _ _ b b' _ _ _ _ => ?_
    · rw [bind_pure_comp]
      exact (sameWay_map _ _).steady ih
    · rw [bind_pure_comp, bind_pure_comp]
      exact (sameWay_map _ _).symm.trans (sameWay_map _ _)

/-! ## Every question is steady -/

theorem isOk_map (r : Except Error α) (g : α → β) : (r.map g).isOk = r.isOk := by
  cases r <;> rfl

theorem replays_needCategories (hn : ¬ x.Interrupted t) : Replays x t x.needCategories := by
  intro j j' hj hj' hpast
  cases hc : j'.memo.categories with
  | some table => rw [needCategories_of_known hc]
  | none =>
    rcases needCategories_cases hn hj' hc with hsame | ⟨hlisted, -, -⟩
    · exact hsame
    · obtain ⟨j₁, hj₁, -, -, -, hsome⟩ := needCategories_on hj
      rw [hj₁] at hpast
      have hknown := hpast.done .categories (hsome hlisted)
      rw [IsDone, hc] at hknown
      cases hknown

theorem steady_needCategories (hn : ¬ x.Interrupted t) : Steady x t x.needCategories where
  keeps := needCategories_keeps
  past := needCategories_past
  ends := by
    refine ⟨(x.listedCategories t).isOk, fun j hj => ?_⟩
    obtain ⟨j', hj', -⟩ := needCategories_on hj
    rw [hj', isOk_map]
  replays := replays_needCategories hn

theorem replays_needPackages (hn : ¬ x.Interrupted t) (c : Category) :
    Replays x t (x.needPackages c) := by
  intro j j' hj hj' hpast
  have hneed := replays_needCategories hn j j' hj hj' ((needPackages_past c j).trans hpast)
  have hs := needCategories_keeps j' hj'
  rw [← hneed, needPackages_eq, Scan.on_bind]
  cases (x.needCategories.on t j').1 with
  | error e => rfl
  | ok u =>
    simp only
    rw [Scan.on_bind_of_ok (Scan.on_memo t _)]
    split
    case isFalse => rfl
    case isTrue hflag =>
      obtain ⟨table, htable, hunloaded⟩ := Option.bind_eq_some_iff.1 hflag
      obtain ⟨r, hrecords⟩ := records_loadPackages (x := x) (t := t) c
      obtain ⟨j₂, hj₂, hes⟩ := hrecords (x.needCategories.on t j').2
      rw [hj₂, hes]
      cases hdirs : subdirectoriesIn t (x.categoryDir c) with
      | error e => rw [errorsAt_packages_of_error hdirs, List.append_nil]
      | ok dirs =>
        have hcategory : x.isCategory t c = .ok true := by
          rw [hs.isCategory htable, Table.contains, hunloaded]
          rfl
        obtain ⟨ps, hps, -⟩ := listedPackages_ok (x := x) hdirs
        obtain ⟨j₁, hj₁, -, -, hloaded⟩ := needPackages_on hj c
        rw [packagesIn_eq hcategory, if_pos rfl, hps] at hloaded
        rw [hj₁] at hpast
        have hdone := (hpast.trans (needCategories_past (t := t) j')).done (.packages c)
          (hloaded rfl hcategory)
        rw [IsDone, IndexMemo.isLoaded, hflag] at hdone
        cases hdone

theorem steady_needPackages (hn : ¬ x.Interrupted t) (c : Category) :
    Steady x t (x.needPackages c) where
  keeps := needPackages_keeps c
  past j := (needPackages_looked j.memo c j .refl).learned.retains.past
  ends := by
    refine ⟨(x.packagesIn t c).isOk, fun j hj => ?_⟩
    obtain ⟨j', hj', -⟩ := needPackages_on hj c
    rw [hj', isOk_map]
  replays := replays_needPackages hn c

theorem lookupPackage_past (htree : x.layout = .tree) (n : QualifiedName) (j : Journal IndexMemo) :
    Past x (x.needCategories.on t j).2.memo ((x.lookupPackage n).on t j).2.memo := by
  rcases lookupPackage_tree (t := t) htree n j with hmemo | hmemo
  · rw [hmemo]
    exact .refl _
  · rw [hmemo]
    exact past_addPackage _ n

theorem replays_lookupPackage (hn : ¬ x.Interrupted t) (n : QualifiedName) :
    Replays x t (x.lookupPackage n) := by
  intro j j' hj hj' hpast
  cases hlayout : x.layout with
  | installed =>
    rw [lookupPackage_installed hlayout n hj] at hpast
    rw [lookupPackage_installed hlayout n hj']
    exact replays_needPackages hn n.category j j' hj hj' hpast
  | tree =>
    have hneed := replays_needCategories hn j j' hj hj'
      ((lookupPackage_past hlayout n j).trans hpast)
    rcases lookupPackage_tree (t := t) hlayout n j' with hmemo | hmemo
    · rw [hmemo, hneed]
    · rw [hmemo]
      exact hneed

theorem steady_lookupPackage (hn : ¬ x.Interrupted t) (n : QualifiedName) :
    Steady x t (x.lookupPackage n) where
  keeps := lookupPackage_keeps n
  past j := (lookupPackage_looked j.memo n j .refl).learned.retains.past
  ends := by
    refine ⟨(x.holds t n).isOk, fun j hj => ?_⟩
    obtain ⟨r, j', hj', -, -, hr⟩ := lookupPackage_finds hj n
    rw [hj']
    rcases hr with rfl | ⟨rfl, hbare⟩
    · rfl
    · rw [hbare.holds]
      rfl
  replays := replays_lookupPackage hn n

theorem needVersions_of_unknown (htree : x.layout = .tree) {n : QualifiedName}
    {j : Journal IndexMemo} (h : ¬ j.memo.versions.contains n = true) :
    (x.needVersions n).on t j =
      (x.lookupPackage n >>= fun present =>
        if present then x.readVersions n else pure ()).on t j := by
  rw [needVersions_eq, htree]
  simp only
  rw [Scan.on_bind_of_ok (Scan.on_memo t j), if_neg h]

/-- Where the versions are still unknown afterwards, the package was not found. -/
theorem needVersions_unfound (htree : x.layout = .tree) {n : QualifiedName}
    {j : Journal IndexMemo} (hj : Sound x t j.memo)
    (h : ¬ ((x.needVersions n).on t j).2.memo.versions.contains n = true) :
    ((x.needVersions n).on t j).2 = ((x.lookupPackage n).on t j).2 ∧
      ((x.lookupPackage n).on t j).1 ≠ .ok true := by
  have hunknown : ¬ j.memo.versions.contains n = true := fun hknown =>
    h (((needVersions_looked j.memo n j .refl).learned.retains.isDone (.versions n)
      ⟨htree, hknown⟩).2)
  rw [needVersions_of_unknown htree hunknown, Scan.on_bind] at h ⊢
  cases hfound : ((x.lookupPackage n).on t j).1 with
  | error e => exact ⟨rfl, nofun⟩
  | ok present =>
    cases present with
    | false => exact ⟨rfl, nofun⟩
    | true =>
      have hholds := holds_of_lookup hj (Prod.ext hfound rfl)
      obtain ⟨vs, j₁, -, hj₁, -⟩ := readVersions_on (lookupPackage_keeps n j hj) htree hholds
      rw [hfound] at h
      simp only [↓reduceIte, hj₁] at h
      exact absurd (readVersions_done hj₁) h

theorem replays_needVersions (hn : ¬ x.Interrupted t) (htree : x.layout = .tree)
    (n : QualifiedName) : Replays x t (x.needVersions n) := by
  intro j j' hj hj' hpast
  by_cases hknown : j'.memo.versions.contains n = true
  · rw [needVersions_eq, htree]
    simp only
    rw [Scan.on_bind_of_ok (Scan.on_memo t j'), if_pos hknown]
    rfl
  · obtain ⟨hsame, hunfound⟩ := needVersions_unfound htree hj fun h =>
      hknown (hpast.done (.versions n) ⟨htree, h⟩).2
    rw [hsame] at hpast
    have hlookup := replays_lookupPackage hn n j j' hj hj' hpast
    rw [needVersions_of_unknown htree hknown, Scan.on_bind, ← hlookup]
    cases hfound : ((x.lookupPackage n).on t j').1 with
    | error e => rfl
    | ok present =>
      cases present with
      | false => rfl
      | true =>
        -- found now but not before: a bare directory, which holds no entries
        have hholds := holds_of_lookup hj' (Prod.ext hfound rfl)
        obtain ⟨r, j₁, hj₁, -, -, hr⟩ := lookupPackage_finds hj n
        rw [hj₁, ← hholds] at hunfound
        have hbare := (hr.resolve_left hunfound).2
        obtain ⟨j₂, hj₂, hes⟩ :=
          records_readVersions hbare.directory ((x.lookupPackage n).on t j').2
        rw [hbare.errorsAt_eq_nil, List.append_nil] at hes
        simp only [↓reduceIte, hj₂]
        exact hes

theorem sameWay_needVersions (hinstalled : x.layout = .installed) (n : QualifiedName) :
    SameWay t (x.lookupPackage n) (x.needVersions n) := by
  rw [needVersions_eq, hinstalled]
  exact sameWay_map _ _

theorem steady_needVersions (hn : ¬ x.Interrupted t) (n : QualifiedName) :
    Steady x t (x.needVersions n) := by
  cases hlayout : x.layout with
  | installed => exact (sameWay_needVersions hlayout n).steady (steady_lookupPackage hn n)
  | tree =>
    refine ⟨needVersions_keeps n, fun j => ?_, ⟨(x.versionsIn t n).isOk, fun j hj => ?_⟩,
      replays_needVersions hn hlayout n⟩
    · exact (needVersions_looked j.memo n j .refl).learned.retains.past
    · obtain ⟨j', hj', -⟩ := needVersions_on hj n
      rw [hj', isOk_map]

theorem replays_metadata (hn : ¬ x.Interrupted t) (n : QualifiedName) (v : Version) :
    Replays x t (x.metadata n v) := by
  intro j j' hj hj' hpast
  cases hm' : j'.memo.metadata.get? (n, v) with
  | some m => rw [metadata_of_known hm']
  | none =>
    have hm : j.memo.metadata.get? (n, v) = none := by
      cases hm : j.memo.metadata.get? (n, v) with
      | none => rfl
      | some m =>
        rw [metadata_of_known hm] at hpast
        rw [hpast.metadata (n, v) m hm] at hm'
        cases hm'
    have hversions := (steady_needVersions hn n).replays j j' hj hj'
      ((metadata_past hm).1.trans hpast)
    exact (metadata_past hm').2.trans hversions

theorem steady_metadata (hn : ¬ x.Interrupted t) (n : QualifiedName) (v : Version) :
    Steady x t (x.metadata n v) where
  keeps := (metadata_yields n v).keeps
  past j := (metadata_learned j.memo n v j .refl).retains.past
  ends := ⟨(x.recordIn t n v).isOk, fun j hj => by rw [(metadata_yields n v j hj).1]⟩
  replays := replays_metadata hn n v

theorem reply_steady (hn : ¬ x.Interrupted t) (q : Query α) : Steady x t (x.reply q) := by
  have hcategories : Steady x t x.categories :=
    (sameWay_answer _ _).steady (steady_needCategories hn)
  have hpackages (c : Category) : Steady x t (x.packages c) :=
    (sameWay_answer _ _).steady (steady_needPackages hn c)
  -- the categories are always the same, so that what is done with them is too
  have hlisted {β : Type} {f : List Category → Scan IndexMemo β} (hf : ∀ cs, Steady x t (f cs)) :
      Steady x t (x.categories >>= f) := by
    refine hcategories.bind hf fun j j' cs cs' hj hj' hcs hcs' => ?_
    rw [(categories_yields j hj).1] at hcs
    rw [(categories_yields j' hj').1, hcs] at hcs'
    cases hcs'
    exact fun _ => ⟨rfl, rfl⟩
  cases q with
  | ask q =>
    cases q with
    | hasCategory c => exact (sameWay_answer _ _).steady (steady_needCategories hn)
    | categories => exact hcategories
    | packages c => exact hpackages c
    | hasPackage n => exact steady_lookupPackage hn n
    | versions n => exact (sameWay_answer _ _).steady (steady_needVersions hn n)
    | hasVersion n v => exact (sameWay_hasVersion n v).steady (steady_needVersions hn n)
    | metadata n v => exact steady_metadata hn n v
    | containing p => exact hlisted fun cs => .filterM cs fun c => steady_lookupPackage hn ⟨c, p⟩
  | allPackages =>
    refine hlisted fun cs => ?_
    rw [bind_pure_comp]
    exact (sameWay_map _ _).steady (.mapM cs hpackages)

/-! ## When each offence is recorded once -/

theorem Sound.readsLists (h : Sound x t memo) (hdone : x.IsDone memo .categories) :
    ∀ dir ∈ x.sources, ReadsList t dir := by
  obtain ⟨table, htable⟩ := Option.isSome_iff_exists.1 hdone
  obtain ⟨found, hfound, -⟩ := h.categories table htable
  by_contra hunreadable
  obtain ⟨before, dir, after, hsources, hbefore, hdir⟩ := exists_unreadable hunreadable
  obtain ⟨e, he, -⟩ := records_unreadable hsources hbefore hdir
  rw [hfound] at he
  cases he

/-- What is accounted for are offences, each once. -/
theorem Accounted.exists_items (hplaces : t.entries.keys.Nodup)
    (hshares : (∀ dir ∈ x.sources, ReadsList t dir) → ¬ x.Shares t) (h : Accounted x t memo) :
    ∃ items : List Offence, items.Nodup ∧ List.Forall₂ (Offends x t) items memo.diagnostics := by
  obtain ⟨ls, hls, hdone, hdiagnostics⟩ := h.levels
  have herrors : memo.diagnostics = (ls.flatMap (x.offencesAt t)).map Prod.snd := by
    rw [hdiagnostics, List.map_flatMap]
    rfl
  refine ⟨(ls.flatMap (x.offencesAt t)).map Prod.fst, nodup_offences hplaces hls fun hmem =>
    hshares (h.sound.readsLists (hdone _ hmem)), ?_⟩
  rw [herrors, List.forall₂_map_left_iff, List.forall₂_map_right_iff, List.forall₂_same]
  intro item hitem
  obtain ⟨l, hl, hitem⟩ := List.mem_flatMap.1 hitem
  exact offends_of_mem (fun n hn => (hn ▸ hdone l hl : x.IsDone memo (.versions n)).1) hitem

/-- Asking for the categories while they are unknown records what looking for them does. -/
theorem diagnostics_categories {r : Except Error (Table Category Bool)} {es : List Error}
    (hrecords : Records x.scanCategories t r es) (hnone : memo.categories = none) :
    ((x.reply (.ask .categories)).run t memo).2.1.diagnostics = memo.diagnostics ++ es := by
  have hway := sameWay_answer (t := t) x.needCategories IndexMemo.categoryNames ⟨memo, []⟩
  rw [Scan.run_eq_on]
  exact (congrArg (fun j : Journal IndexMemo => j.memo.diagnostics) hway.1).trans
    (needCategories_records (j := ⟨memo, []⟩) hrecords hnone)

/-- While a list cannot be read, the categories stay unknown, and each question about them records
the malformed lines before it again. -/
theorem Interrupted.not_onceDiagnosed (h : x.Interrupted t) : ¬ x.OnceDiagnosed t := by
  intro honce
  obtain ⟨e, es, hlisted, hrecords, hne⟩ := h.records
  have hasked : Onward x t {} ((x.reply (.ask .categories)).run t {}).2.1 := .asked _ .now
  have hsound := hasked.sound sound_empty
  have hnone : ((x.reply (.ask .categories)).run t {}).2.1.categories = none := by
    refine Option.eq_none_iff_forall_not_mem.2 fun table htable => ?_
    obtain ⟨found, hfound, -⟩ := hsound.categories table htable
    rw [hlisted] at hfound
    cases hfound
  have hagain := (honce {} .now).2 _ (.ask .categories) _ .now
  rw [diagnostics_categories hrecords hnone] at hagain
  exact hne (List.append_right_eq_self.1 hagain)

theorem kind_of_parse_package {s : String} {e : Error} (h : PackageName.parse s = .error e) :
    e.kind = .invalidPackageName := by
  unfold PackageName.parse at h
  split at h
  case isTrue => cases h
  case isFalse =>
    cases h
    rfl

theorem kind_of_parse_category {s : String} {e : Error} (h : Category.parse s = .error e) :
    e.kind = .invalidCategory := by
  unfold Category.parse at h
  split at h
  case isTrue => cases h
  case isFalse =>
    cases h
    rfl

theorem kind_of_parse_version {s : String} {e : Error} (h : Version.parse s = .error e) :
    e.kind = .invalidVersion := by
  unfold Version.parse at h
  split at h
  case h_1 => cases h
  case h_2 =>
    cases h
    rfl

theorem kind_of_splitVersioned {s : String} {e : Error} (h : splitVersioned s = .error e) :
    e.kind = .invalidVersion := by
  unfold splitVersioned at h
  split at h
  case h_1 => cases h
  case h_2 =>
    cases h
    rfl

/-- If some source has a list, a malformed category is a line of a list. -/
theorem Offends.mem_lines (hlisted : x.isListed t = true) {offence : Offence} {e : Error}
    (h : Offends x t offence e) (hkind : e.kind = .invalidCategory) :
    offence ∈ (x.sources.flatMap (lineOffences t)).map Prod.fst := by
  cases h with
  | @line dir text line k e hdir hread hline he =>
    exact List.mem_map.2 ⟨(.line (FileTree.placeOf (categoriesFile dir)) k, e), List.mem_flatMap.2
      ⟨dir, hdir, mem_lineOffences_iff.2 ⟨text, k, line, hread, hline, he, rfl⟩⟩, rfl⟩
  | category hunlisted =>
    obtain ⟨dir, hdir, hfile⟩ := List.any_eq_true.1 hlisted
    rw [hunlisted dir hdir] at hfile
    cases hfile
  | package _ _ _ he =>
    rw [kind_of_parse_package he] at hkind
    cases hkind
  | installed _ _ _ he =>
    rw [kind_of_splitVersioned he] at hkind
    cases hkind
  | version _ _ _ he =>
    rw [kind_of_parse_version he] at hkind
    cases hkind

theorem subset_lines (hlisted : x.isListed t = true) {items : List Offence} {es : List Error}
    (h : List.Forall₂ (Offends x t) items es) (hkinds : ∀ e ∈ es, e.kind = .invalidCategory) :
    items ⊆ (x.sources.flatMap (lineOffences t)).map Prod.fst := by
  induction h with
  | nil => exact List.nil_subset _
  | cons hitem _ ih =>
    obtain ⟨hkind, hkinds⟩ := List.forall_mem_cons.1 hkinds
    exact List.cons_subset.2 ⟨hitem.mem_lines hlisted hkind, ih hkinds⟩

theorem Shares.isListed (h : x.Shares t) : x.isListed t = true := by
  obtain ⟨dir, dir', hsub, -, ⟨text, htext, -⟩, -⟩ := h
  refine List.any_eq_true.2 ⟨dir, hsub.subset List.mem_cons_self, ?_⟩
  exact FileTree.isFile_iff.2 ⟨_, FileTree.readText_eq_ok_iff.1 htext, nofun⟩

/-- Where two sources have the same list, its malformed lines are recorded for both, and there are
more errors than lines. -/
theorem Shares.not_onceDiagnosed (h : x.Shares t) (hreadable : ∀ dir ∈ x.sources, ReadsList t dir) :
    ¬ x.OnceDiagnosed t := by
  intro honce
  have hlisted := h.isListed
  obtain ⟨⟨found, listed⟩, hsources⟩ := foldlM_withSource_of_readable hreadable (∅, false)
  have hfound : x.listedCategories t = .ok found := by
    have hflag : listed = true := (isListed_iff hsources).symm.trans hlisted
    unfold listedCategories
    rw [hsources, hflag]
    rfl
  have hdiagnostics : ((x.reply (.ask .categories)).run t {}).2.1.diagnostics =
      (x.sources.flatMap (lineOffences t)).map Prod.snd := by
    rw [diagnostics_categories (records_scanCategories hfound) rfl, errorsAt, offencesAt,
      if_pos hlisted]
    rfl
  obtain ⟨⟨items, hnodup, hitems⟩, -⟩ := honce _ (.asked (.ask .categories) .now)
  rw [hdiagnostics] at hitems
  have hsub : items.Subperm ((x.sources.flatMap (lineOffences t)).map Prod.fst) := by
    refine List.subperm_of_subset hnodup (subset_lines hlisted hitems fun e he => ?_)
    obtain ⟨item, hitem, rfl⟩ := List.mem_map.1 he
    obtain ⟨dir, -, hitem⟩ := List.mem_flatMap.1 hitem
    obtain ⟨text, k, line, -, -, hparse, -⟩ := mem_lineOffences_iff.1 hitem
    exact kind_of_parse_category hparse
  have hlength := hitems.length_eq
  rw [List.length_map] at hlength
  have hperm := hsub.perm_of_length_le (by rw [List.length_map, hlength])
  exact nodup_lines_iff.1 (hperm.nodup_iff.1 hnodup) h

/-- Each offence is recorded once, and nothing is recorded for a question that was asked before,
unless a list of categories that cannot be read comes after one with a malformed line, or all lists
can be read and two sources have the same one with a malformed line.  However files are written,
each place has one entry (`FileTree.nodup_keys_after`). -/
theorem onceDiagnosed_iff (hplaces : t.entries.keys.Nodup) : x.OnceDiagnosed t ↔
    ¬ x.Interrupted t ∧ ¬ ((∀ dir ∈ x.sources, ReadsList t dir) ∧ x.Shares t) := by
  constructor
  · intro honce
    exact ⟨fun h => h.not_onceDiagnosed honce, fun ⟨hreadable, h⟩ =>
      h.not_onceDiagnosed hreadable honce⟩
  · rintro ⟨hn, hshares⟩ memo hmemo
    have hsound := hmemo.sound sound_empty
    refine ⟨(hmemo.accounted hn accounted_empty).exists_items hplaces
      fun hreadable h => hshares ⟨hreadable, h⟩, fun α q later hlater => ?_⟩
    rw [Scan.run_eq_on] at hlater ⊢
    exact (reply_steady hn q).replays ⟨memo, []⟩ ⟨later, []⟩ hsound
      (hlater.sound (reply_keeps q ⟨memo, []⟩ hsound)) hlater.past

/-- A list of categories with a malformed line, and a directory that is no package. -/
def malformedTree : FileTree :=
  ⟨⟨[(["r"], .directory), (["r", "profiles"], .directory),
    (["r", "profiles", "categories"], .text "cat\n-bad\n"), (["r", "cat"], .directory),
    (["r", "cat", "-x"], .directory)]⟩⟩

theorem onceDiagnosed_malformedTree :
    malformedTree.entries.keys.Nodup ∧ bareIndex.OnceDiagnosed malformedTree := by
  have hplaces : malformedTree.entries.keys.Nodup := by decide
  have hn : ¬ bareIndex.Interrupted malformedTree := by
    rintro ⟨before, dir, after, hsources, -, -, d, hd, -⟩
    have hlength := congrArg List.length hsources
    have hone : bareIndex.sources.length = 1 := rfl
    have hpos := List.length_pos_of_mem hd
    rw [hone, List.length_append, List.length_cons] at hlength
    omega
  have hshares : ¬ bareIndex.Shares malformedTree := by
    rintro ⟨dir, dir', hsub, -⟩
    have htwo : 2 ≤ 1 := hsub.length_le
    omega
  exact ⟨hplaces, (onceDiagnosed_iff hplaces).2 ⟨hn, fun h => hshares h.2⟩⟩

/-- Two lists of categories, one with a malformed line and one that cannot be read. -/
def interruptedTree : FileTree :=
  ⟨⟨[(["r"], .directory), (["r", "a"], .directory), (["r", "a", "categories"], .text "-bad\n"),
    (["r", "b"], .directory), (["r", "b", "categories"], .directory)]⟩⟩

def interruptedIndex : Index := { bareIndex with sources := ["/r/a", "/r/b"] }

theorem not_onceDiagnosed_interruptedTree : ¬ interruptedIndex.OnceDiagnosed interruptedTree := by
  have hmalformed : Malformed interruptedTree "/r/a" :=
    ⟨"-bad\n", by decide +kernel, "-bad", by decide +kernel, .invalidCategory "-bad",
      by decide +kernel⟩
  have hread : ∀ d ∈ ["/r/a"], ReadsList interruptedTree d := by decide +kernel
  have hunreadable : ¬ ReadsList interruptedTree "/r/b" := by decide +kernel
  have hinterrupted : interruptedIndex.Interrupted interruptedTree :=
    ⟨["/r/a"], "/r/b", [], rfl, hread, hunreadable, "/r/a", List.mem_singleton_self _, hmalformed⟩
  exact hinterrupted.not_onceDiagnosed

end PackageCatalog.Index
