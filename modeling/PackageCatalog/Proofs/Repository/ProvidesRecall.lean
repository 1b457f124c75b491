import PackageCatalog.Proofs.Repository.Provides

/-!
# What a scan of installed packages recalls

A scan finds the provisions that the repository recalls (`mem_provisionsFrom_iff`), each package
version once and in order (`ordered_provisionsFrom`).  What a provides cache tells is therefore what
a new scan would find if and only if the repository recalls the same provisions as a new one:

    (∃ entries, a new scan finds them and the cache tells them)  ↔  r.UpToDate t memo
                                                                             (tells_found_iff)
-/

namespace PackageCatalog.InstalledRepository

open Index (Coherent Orderly provideOf)

variable {r : InstalledRepository} {t : FileTree}

/-! ## Lists of provisions -/

attribute [ext] Provision

/-- By package and then by version. -/
def Provision.Before (p q : Provision) : Prop :=
  compare p.provider q.provider = .lt ∨
    p.provider = q.provider ∧ compare p.version q.version = .lt

instance : Std.Irrefl Provision.Before where
  irrefl p h := by
    rcases h with h | ⟨-, h⟩
    · rw [Std.ReflOrd.compare_self] at h
      cases h
    · rw [Std.ReflOrd.compare_self] at h
      cases h

theorem Provision.Before.asymm {p q : Provision} (h : p.Before q) : ¬ q.Before p := by
  rintro h'
  rcases h with h | ⟨heq, h⟩ <;> rcases h' with h' | ⟨heq', h'⟩
  · rw [Std.OrientedOrd.eq_swap, h'] at h
    cases h
  · rw [heq', Std.ReflOrd.compare_self] at h
    cases h
  · rw [heq, Std.ReflOrd.compare_self] at h'
    cases h'
  · rw [Std.OrientedOrd.eq_swap, h'] at h
    cases h

instance : Std.Antisymm Provision.Before where
  antisymm _ _ h h' := absurd h' h.asymm

/-- What the entries say that a package version provides. -/
def virtualsOf (entries : List VirtualEntry) (n : QualifiedName) (v : Version) :
    List QualifiedName :=
  (entries.filter fun e => e.provider = n ∧ e.version = v).map (·.virtualName)

theorem virtualsOf_append (entries entries' : List VirtualEntry) (n : QualifiedName) (v : Version) :
    virtualsOf (entries ++ entries') n v = virtualsOf entries n v ++ virtualsOf entries' n v := by
  rw [virtualsOf, List.filter_append, List.map_append]
  rfl

theorem virtualsOf_entries (p : Provision) (repository : String) (n : QualifiedName) (v : Version) :
    virtualsOf (p.entries repository) n v =
      if p.provider = n ∧ p.version = v then p.virtuals else [] := by
  unfold virtualsOf Provision.entries
  rw [List.filter_map, List.map_map]
  split
  case isTrue h => simp [Function.comp_def, h]
  case isFalse h => simp [Function.comp_def, h]

theorem virtualsOf_eq_nil {ps : List Provision} {n : QualifiedName} {v : Version}
    (h : ∀ p ∈ ps, ¬ (p.provider = n ∧ p.version = v)) : virtualsOf (r.entriesOf ps) n v = [] := by
  induction ps with
  | nil => rfl
  | cons p ps ih =>
    obtain ⟨hp, hps⟩ := List.forall_mem_cons.1 h
    rw [entriesOf, List.flatMap_cons, virtualsOf_append, virtualsOf_entries, if_neg hp,
      List.nil_append]
    exact ih hps

theorem virtualsOf_of_mem {ps : List Provision} (hps : ps.Pairwise Provision.Before)
    {p : Provision} (hp : p ∈ ps) :
    virtualsOf (r.entriesOf ps) p.provider p.version = p.virtuals := by
  induction ps with
  | nil => cases hp
  | cons q ps ih =>
    obtain ⟨hbefore, hps⟩ := List.pairwise_cons.1 hps
    have hdiffer : ∀ p' ∈ ps, ¬ (p'.provider = q.provider ∧ p'.version = q.version) := by
      rintro p' hp' ⟨hprovider, hversion⟩
      rcases hbefore p' hp' with h | ⟨-, h⟩
      · rw [hprovider, Std.ReflOrd.compare_self] at h
        cases h
      · rw [hversion, Std.ReflOrd.compare_self] at h
        cases h
    rw [entriesOf, List.flatMap_cons, virtualsOf_append, virtualsOf_entries]
    rcases List.mem_cons.1 hp with rfl | hp
    · rw [if_pos ⟨rfl, rfl⟩, ← entriesOf, virtualsOf_eq_nil hdiffer, List.append_nil]
    · rw [if_neg fun h => hdiffer p hp ⟨h.1.symm, h.2.symm⟩, List.nil_append]
      exact ih hps hp

/-- The entries tell which provisions they were made from. -/
theorem entriesOf_eq_iff {ps qs : List Provision} (hps : ps.Pairwise Provision.Before)
    (hqs : qs.Pairwise Provision.Before) (hsomeP : ∀ p ∈ ps, p.virtuals ≠ [])
    (hsomeQ : ∀ q ∈ qs, q.virtuals ≠ []) :
    r.entriesOf ps = r.entriesOf qs ↔ ∀ p, p ∈ ps ↔ p ∈ qs := by
  have hmem : ∀ {ps qs : List Provision}, ps.Pairwise Provision.Before →
      qs.Pairwise Provision.Before → (∀ p ∈ ps, p.virtuals ≠ []) →
      r.entriesOf ps = r.entriesOf qs → ∀ p ∈ ps, p ∈ qs := by
    intro ps qs hps hqs hsome heq p hp
    have hvirtuals := virtualsOf_of_mem (r := r) hps hp
    rw [heq] at hvirtuals
    by_contra hnot
    refine hsome p hp (hvirtuals.symm.trans (virtualsOf_eq_nil fun q hq h => hnot ?_))
    have hvirtuals' := virtualsOf_of_mem (r := r) hqs hq
    rw [h.1, h.2, hvirtuals] at hvirtuals'
    rwa [show p = q from Provision.ext h.1.symm h.2.symm hvirtuals']
  constructor
  · intro heq p
    exact ⟨hmem hps hqs hsomeP heq p, hmem hqs hps hsomeQ heq.symm p⟩
  · intro h
    rw [List.Pairwise.eq_of_mem_iff hps hqs h]

/-! ## Recalled provisions -/

/-- A provision of a package version that is remembered or else there, by the record that is
remembered or else there. -/
structure Recalls (r : InstalledRepository) (t : FileTree) (memo : IndexMemo) (p : Provision) :
    Prop where
  package : r.index.Recalls t memo p.provider
  version : p.version ∈ r.index.recalledVersions t memo p.provider
  virtuals : provideOf (r.index.recordFrom t memo p.provider p.version) = p.virtuals
  some : p.virtuals ≠ []

theorem provisionFrom_eq_some_iff {memo : IndexMemo} {n : QualifiedName} {v : Version}
    {p : Provision} : r.provisionFrom t memo n v = some p ↔ p.provider = n ∧ p.version = v ∧
      provideOf (r.index.recordFrom t memo n v) = p.virtuals ∧ p.virtuals ≠ [] := by
  obtain ⟨provider, version, virtuals⟩ := p
  unfold provisionFrom
  cases hvirtuals : provideOf (r.index.recordFrom t memo n v) with
  | nil =>
    refine iff_of_false nofun ?_
    rintro ⟨-, -, rfl, hsome⟩
    exact hsome rfl
  | cons first rest =>
    simp only [List.isEmpty_cons, Bool.false_eq_true, ↓reduceIte, Option.some.injEq,
      Provision.mk.injEq]
    constructor
    · rintro ⟨rfl, rfl, rfl⟩
      exact ⟨rfl, rfl, rfl, List.cons_ne_nil first rest⟩
    · rintro ⟨rfl, rfl, rfl, -⟩
      exact ⟨rfl, rfl, rfl⟩

/-- The provisions of a scan are those that are recalled. -/
theorem mem_provisionsFrom_iff (hinstalled : r.index.layout = .installed)
    {j j' : Journal IndexMemo} {ns : List QualifiedName}
    (hlist : r.index.allPackages.on t j = (.ok ns, j')) (hcoherent : Coherent r.index j.memo)
    {p : Provision} : p ∈ r.provisionsFrom t j'.memo ↔ r.Recalls t j.memo p := by
  obtain ⟨hwhole, rfl, -⟩ := Index.allPackages_ok hlist
  have hsurveyed := Index.surveyed_of_list hlist
  have hpackage : p.provider ∈ j'.memo.catalogue ↔ r.index.Recalls t j.memo p.provider :=
    Index.mem_list_iff hlist
  have hversions : ∀ n ∈ j'.memo.catalogue,
      j'.memo.versionsOf n = r.index.recalledVersions t j.memo n := fun n hn =>
    hsurveyed.versions hinstalled hcoherent n (hwhole.loaded _ (Index.mem_catalogue_iff.1 hn).1)
  have hrecord : ∀ n v, r.index.recordFrom t j'.memo n v = r.index.recordFrom t j.memo n v :=
    fun n v => by rw [Index.recordFrom, Index.recordFrom, hsurveyed.gathered.metadata]
  unfold provisionsFrom
  rw [List.mem_flatMap]
  constructor
  · rintro ⟨n, hn, hp⟩
    obtain ⟨v, hv, hp⟩ := List.mem_filterMap.1 hp
    obtain ⟨rfl, rfl, hvirtuals, hsome⟩ := provisionFrom_eq_some_iff.1 hp
    rw [hversions _ hn] at hv
    rw [hrecord] at hvirtuals
    exact ⟨hpackage.1 hn, hv, hvirtuals, hsome⟩
  · rintro ⟨hp, hv, hvirtuals, hsome⟩
    rw [← hpackage] at hp
    rw [← hversions _ hp] at hv
    rw [← hrecord] at hvirtuals
    exact ⟨p.provider, hp, List.mem_filterMap.2
      ⟨p.version, hv, provisionFrom_eq_some_iff.2 ⟨rfl, rfl, hvirtuals, hsome⟩⟩⟩

theorem ordered_provisionsFrom {memo : IndexMemo} (horderly : Orderly r.index memo) :
    (r.provisionsFrom t memo).Pairwise Provision.Before := by
  refine List.pairwise_flatMap.2 ⟨fun n _ => List.pairwise_filterMap.2 ?_, ?_⟩
  · refine (horderly.versions n).imp fun {v v'} hv p hp p' hp' => ?_
    obtain ⟨rfl, rfl, -⟩ := provisionFrom_eq_some_iff.1 hp
    obtain ⟨hprovider, rfl, -⟩ := provisionFrom_eq_some_iff.1 hp'
    exact .inr ⟨hprovider.symm, hv⟩
  · refine (Ascending.sorted_ofList _ : Ascending.Sorted memo.catalogue).imp
      fun {n n'} hn p hp p' hp' => ?_
    obtain ⟨v, -, hp⟩ := List.mem_filterMap.1 hp
    obtain ⟨v', -, hp'⟩ := List.mem_filterMap.1 hp'
    obtain ⟨rfl, -⟩ := provisionFrom_eq_some_iff.1 hp
    obtain ⟨rfl, -⟩ := provisionFrom_eq_some_iff.1 hp'
    exact .inl hn

/-! ## Telling what a new scan finds -/

/-- What is recalled is what a new scan would find, and a new scan would not fail. -/
structure UpToDate (r : InstalledRepository) (t : FileTree) (memo : IndexMemo) : Prop where
  listed : ∃ ns, (r.index.allPackages.run t {}).1 = .ok ns
  provisions : ∀ p, r.Recalls t memo p ↔ r.Recalls t {} p

theorem Tells.unique {w : Workspace InstalledMemo} {entries entries' : List VirtualEntry}
    (h : r.Tells w entries) (h' : r.Tells w entries') : entries = entries' := by
  obtain ⟨memo, h⟩ := h
  obtain ⟨memo', h'⟩ := h'
  exact Except.ok.inj (congrArg Prod.fst (h.symm.trans h'))

/-- A new scan finds something if it can list the packages. -/
theorem exists_list_of_finds {entries : List VirtualEntry}
    (h : r.Finds ⟨t, r.freshMemo, []⟩ entries) :
    ∃ ns j, r.index.allPackages.on t ⟨{}, []⟩ = (.ok ns, j) := by
  unfold Finds at h
  rw [provided_withoutProvides rfl] at h
  obtain ⟨provisions, hscan, -⟩ := Scan.map_eq_ok_iff.1 h
  obtain ⟨ns, j, hlist, -⟩ := Scan.on_bind_eq_ok (j := ⟨r.freshMemo, []⟩) (Prod.ext hscan rfl)
  rw [InstalledMemo.onIndex, Scan.on_zoom] at hlist
  obtain ⟨hns, -⟩ := Prod.mk.inj hlist
  exact ⟨ns, _, Prod.ext hns rfl⟩

/-- The provides cache tells what a new scan finds if and only if the repository was up to date. -/
theorem tells_found_iff (hinstalled : r.index.layout = .installed) {j j' : Journal IndexMemo}
    {ns : List QualifiedName} (hlist : r.index.allPackages.on t j = (.ok ns, j'))
    (horderly : Orderly r.index j.memo) {w : Workspace InstalledMemo}
    (htells : r.Tells w (r.entriesOf (r.provisionsFrom t j'.memo))) :
    (∃ entries, r.Finds ⟨t, r.freshMemo, []⟩ entries ∧ r.Tells w entries) ↔
      r.UpToDate t j.memo := by
  have hlearned : ∀ {j j' : Journal IndexMemo} {ns : List QualifiedName},
      r.index.allPackages.on t j = (.ok ns, j') → Orderly r.index j.memo →
      (r.provisionsFrom t j'.memo).Pairwise Provision.Before ∧
        ∀ p, p ∈ r.provisionsFrom t j'.memo ↔ r.Recalls t j.memo p := by
    intro j j' ns hlist horderly
    have hlearned := (Index.surveyed_of_list hlist).looked.learned
    exact ⟨ordered_provisionsFrom (hlearned.orderly horderly), fun _ =>
      mem_provisionsFrom_iff hinstalled hlist horderly.coherent⟩
  obtain ⟨hordered, hmem⟩ := hlearned hlist horderly
  have hfound : ∀ {ns₀ : List QualifiedName} {j₀ : Journal IndexMemo},
      r.index.allPackages.on t ⟨{}, []⟩ = (.ok ns₀, j₀) →
      r.Finds ⟨t, r.freshMemo, []⟩ (r.entriesOf (r.provisionsFrom t j₀.memo)) ∧
        (r.entriesOf (r.provisionsFrom t j₀.memo) = r.entriesOf (r.provisionsFrom t j'.memo) ↔
          ∀ p, r.Recalls t {} p ↔ r.Recalls t j.memo p) := by
    intro ns₀ j₀ hlist₀
    obtain ⟨hordered₀, hmem₀⟩ := hlearned hlist₀ Index.orderly_empty
    refine ⟨finds_of_list (w := ⟨t, r.freshMemo, []⟩) hinstalled rfl hlist₀, ?_⟩
    rw [entriesOf_eq_iff hordered₀ hordered (fun p hp => ((hmem₀ p).1 hp).some)
      fun p hp => ((hmem p).1 hp).some]
    exact forall_congr' fun p => by rw [hmem₀, hmem]
  constructor
  · rintro ⟨entries, hfinds, htells'⟩
    obtain ⟨ns₀, j₀, hlist₀⟩ := exists_list_of_finds hfinds
    obtain ⟨hfinds₀, hiff⟩ := hfound hlist₀
    obtain rfl := Except.ok.inj (hfinds.symm.trans hfinds₀)
    refine ⟨⟨ns₀, by rw [Scan.run_eq_on, hlist₀]⟩, fun p => ?_⟩
    exact (hiff.1 (htells'.unique htells) p).symm
  · rintro ⟨⟨ns₀, hlist₀⟩, hprovisions⟩
    rw [Scan.run_eq_on] at hlist₀
    obtain ⟨hfinds₀, hiff⟩ := hfound (Prod.ext hlist₀ rfl)
    refine ⟨_, hfinds₀, ?_⟩
    rw [hiff.2 fun p => (hprovisions p).symm]
    exact htells

end PackageCatalog.InstalledRepository
