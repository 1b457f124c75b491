import PackageCatalog.Proofs.Catalog.Reached

/-!
# What does not exist

Whether a package version exists and what its record is are two questions.  A repository of any kind
answers them as one, whatever it was asked before and however the files changed: a record is
reported missing if the version does not exist, and there is none otherwise.

    exists: no       record: no such package, by the names of the version and the repository
    record: found    exists: yes
    exists: yes      record: not that there is no such package, in a repository with packages

In a repository of virtuals the last need not hold: the record is that of the provider, and the
provider may be gone.
-/

namespace PackageCatalog

open CatalogM (Yields Keeps answer worked)
open Index (Grounded SaysAs)

/-! ## Indexes -/

/-- Whether a version exists, from the memo and the files. -/
def Index.existsFrom (x : Index) (t : FileTree) (memo : IndexMemo) (n : QualifiedName)
    (v : Version) : Except Error Bool :=
  (x.versionsFrom t memo n).map fun vs => decide (v ∈ vs)

theorem Index.existsFrom_eq_ok_iff {x : Index} {t : FileTree} {memo : IndexMemo}
    {n : QualifiedName} {v : Version} {b : Bool} : x.existsFrom t memo n v = .ok b ↔
    ∃ vs, x.versionsFrom t memo n = .ok vs ∧ decide (v ∈ vs) = b :=
  Scan.map_eq_ok_iff

namespace Catalog

/-- The answers to whether a version exists and what its record is go together, be the second
question put at once or after the first. -/
structure TellsMissing (c : Catalog) (k : Nat) (r : Repository) (n : QualifiedName) (v : Version) :
    Prop where
  missing : ((answer k (.hasVersion n v)).on c).1 = .ok false →
    ∀ c' ∈ [c, ((answer k (.hasVersion n v)).on c).2],
      ((answer k (.metadata n v)).on c').1 = .error (.noSuchPackage n.text v.text r.name)
  present : ∀ m, ((answer k (.metadata n v)).on c).1 = .ok m →
    ∀ c' ∈ [c, ((answer k (.metadata n v)).on c).2],
      ((answer k (.hasVersion n v)).on c').1 = .ok true
  existing : r.kind = .ebuild ∨ r.kind = .installed →
    ((answer k (.hasVersion n v)).on c).1 = .ok true →
    ∀ c' ∈ [c, ((answer k (.hasVersion n v)).on c).2],
      Existing ((answer k (.metadata n v)).on c').1

variable {c : Catalog} {k : Nat} {r : Repository} {n : QualifiedName} {v : Version}

/-! ## Repositories with packages -/

theorem keeps_both {I : Catalog → Prop} {α : Type} {m : CatalogM α} (hm : Keeps I m) (hc : I c) :
    ∀ c' ∈ [c, (m.on c).2], I c' :=
  List.forall_mem_cons.2 ⟨hc, List.forall_mem_singleton.2 (hm c hc)⟩

/-- A repository that answers from an index. -/
theorem tellsMissing_of_yields {I : Catalog → Prop} {x : Index} {t : FileTree} {memo : IndexMemo}
    (hc : I c) (hgrounded : Grounded x memo) (hname : x.repository = r.name)
    (hexists : Yields I (answer k (.hasVersion n v)) (x.existsFrom t memo n v))
    (hrecord : Yields I (answer k (.metadata n v)) (x.metadataFrom t memo n v)) :
    c.TellsMissing k r n v where
  missing hmissing c' hc' := by
    rw [(hexists c hc).1] at hmissing
    obtain ⟨vs, hvs, hv⟩ := Index.existsFrom_eq_ok_iff.1 hmissing
    rw [(hrecord c' (keeps_both hexists.keeps hc c' hc')).1, ← hname]
    exact Index.metadataFrom_of_notMem hgrounded hvs (of_decide_eq_false hv)
  present m hm c' hc' := by
    rw [(hrecord c hc).1] at hm
    obtain ⟨vs, hvs, hv⟩ := Index.mem_of_metadataFrom hgrounded hm
    rw [(hexists c' (keeps_both hrecord.keeps hc c' hc')).1]
    exact Index.existsFrom_eq_ok_iff.2 ⟨vs, hvs, decide_eq_true hv⟩
  existing _ hpresent c' hc' := by
    rw [(hexists c hc).1] at hpresent
    obtain ⟨vs, hvs, hv⟩ := Index.existsFrom_eq_ok_iff.1 hpresent
    rw [(hrecord c' (keeps_both hexists.keeps hc c' hc')).1]
    exact Index.metadataFrom_of_mem hvs (of_decide_eq_true hv)

/-- A repository remembers something, and its files are these. -/
def Holds {σ : Type} (k : Nat) (keep : σ → Repository) (t : FileTree) (J : σ → Prop)
    (c : Catalog) : Prop :=
  c.files = t ∧ ∃ memo, c.repositories[k]? = some (keep memo) ∧ J memo

theorem Holds.worked {σ : Type} {keep : σ → Repository} {t : FileTree} {J : σ → Prop} {memo : σ}
    (h : c.Holds k keep t J) (hmemo : J memo) (warnings : List Warning) :
    (worked c k (keep memo) warnings).Holds k keep t J := by
  obtain ⟨hfiles, memo₀, hr, -⟩ := h
  exact ⟨hfiles, memo, (getElem?_worked hr warnings k).trans (if_pos rfl), hmemo⟩

/-- A repository that answers from its index, and remembers other things besides. -/
theorem tellsMissing_of_index {σ : Type} {keep : σ → Repository}
    {ask : {α : Type} → Question α → Scan σ α} {g : σ → IndexMemo} {x : Index} {memo : σ}
    (hon : ∀ {α : Type} (q : Question α) (c : Catalog) memo, c.repositories[k]? = some (keep memo) →
      (answer k q).on c = (((ask q).on c.files ⟨memo, c.warnings⟩).1,
        worked c k (keep ((ask q).on c.files ⟨memo, c.warnings⟩).2.memo)
          ((ask q).on c.files ⟨memo, c.warnings⟩).2.warnings))
    (hr : c.repositories[k]? = some (keep memo)) (hgrounded : Grounded x (g memo))
    (hname : x.repository = (keep memo).name)
    (hexists : Scan.Yields (fun memo' => SaysAs x c.files (g memo) (g memo'))
      (ask (.hasVersion n v)) c.files (x.existsFrom c.files (g memo) n v))
    (hrecord : Scan.Yields (fun memo' => SaysAs x c.files (g memo) (g memo'))
      (ask (.metadata n v)) c.files (x.metadataFrom c.files (g memo) n v)) :
    c.TellsMissing k (keep memo) n v := by
  have hyields {α : Type} {q : Question α} {result : Except Error α}
      (hq : Scan.Yields (fun memo' => SaysAs x c.files (g memo) (g memo')) (ask q) c.files
        result) :
      Yields (Holds k keep c.files fun memo' => SaysAs x c.files (g memo) (g memo'))
        (answer k q) result := by
    rintro c' ⟨hfiles, memo', hr', hmemo'⟩
    obtain ⟨hresult, hmemo''⟩ := hq ⟨memo', c'.warnings⟩ hmemo'
    rw [hon q c' memo' hr', hfiles]
    exact ⟨hresult, Holds.worked ⟨hfiles, memo', hr', hmemo'⟩ hmemo'' _⟩
  exact tellsMissing_of_yields ⟨rfl, memo, hr, .refl hgrounded.coherent⟩ hgrounded hname
    (hyields hexists) (hyields hrecord)

theorem ebuild_tellsMissing {r : EbuildRepository} {memo : EbuildMemo} (h : r.WellFormed memo)
    (hr : c.repositories[k]? = some (.ebuild r memo)) :
    c.TellsMissing k (.ebuild r memo) n v :=
  have hindex {α : Type} {s : Scan IndexMemo α} {result : Except Error α}
      (hs : Scan.Yields (SaysAs r.index c.files memo.index) s c.files result) :
      Scan.Yields (fun memo' => SaysAs r.index c.files memo.index memo'.index)
        (EbuildMemo.onIndex s) c.files result :=
    hs.zoom (fun _ h => h) fun _ _ _ h => h
  tellsMissing_of_index (g := EbuildMemo.index)
    (fun q _ _ h => CatalogM.answer_on_ebuild h q) hr h.index h.named.index
    (hindex (Index.hasVersion_yields_from n v)) (hindex (Index.metadata_yields_from n v))

theorem installed_tellsMissing {r : InstalledRepository} {memo : InstalledMemo}
    (h : r.WellFormed memo) (hr : c.repositories[k]? = some (.installed r memo)) :
    c.TellsMissing k (.installed r memo) n v :=
  have hindex {α : Type} {s : Scan IndexMemo α} {result : Except Error α}
      (hs : Scan.Yields (SaysAs r.index c.files memo.index) s c.files result) :
      Scan.Yields (fun memo' => SaysAs r.index c.files memo.index memo'.index)
        (InstalledMemo.onIndex s) c.files result :=
    hs.zoom (fun _ h => h) fun _ _ _ h => h
  tellsMissing_of_index (g := InstalledMemo.index)
    (fun q _ _ h => CatalogM.answer_on_installed h q) hr h.index h.named.index
    (hindex (Index.hasVersion_yields_from n v)) (hindex (Index.metadata_yields_from n v))

/-! ## Repositories of virtuals -/

/-- A repository of virtuals remembers this of its index. -/
def HasIndex (k : Nat) (memo : Option ProviderIndex) (c : Catalog) : Prop :=
  ∃ r, c.repositories[k]? = some r ∧ r.index? = some memo

variable {number : Nat} {memo : Option ProviderIndex}

theorem HasIndex.worked_ne {r r' : Repository} (h : HasIndex k memo c)
    (hr : c.repositories[number]? = some r) (hne : number ≠ k) (warnings : List Warning) :
    HasIndex k memo (worked c number r' warnings) := by
  obtain ⟨s, hs, hmemo⟩ := h
  exact ⟨s, by rw [getElem?_worked hr, if_neg hne, hs], hmemo⟩

theorem HasIndex.ne_of_packages {r : Repository} (h : HasIndex k memo c)
    (hr : c.repositories[number]? = some r) (hnone : r.index? = none) : number ≠ k := by
  rintro rfl
  obtain ⟨s, hs, hmemo⟩ := h
  obtain rfl := Option.some_inj.1 (hr.symm.trans hs)
  rw [hmemo] at hnone
  cases hnone

theorem undisturbed_hasIndex (k : Nat) (memo : Option ProviderIndex) :
    Undisturbed (HasIndex k memo) where
  warned h _ := h
  ebuild h hr _ ws := h.worked_ne hr (h.ne_of_packages hr rfl) ws
  installed h hr _ ws := h.worked_ne hr (h.ne_of_packages hr rfl) ws

/-- An index is kept with the repository of virtuals that it was built for. -/
theorem keepIndex_on (number : Nat) (x : ProviderIndex) (c : Catalog) :
    (∃ r r' : Repository, c.repositories[number]? = some r ∧ r'.invalidated = r.invalidated ∧
      r'.index? = some (some x) ∧
      (CatalogM.keepIndex number x).on c = (.ok (), worked c number r' c.warnings)) ∨
    (∀ memo, ¬ HasIndex number memo c) ∧ (CatalogM.keepIndex number x).on c = (.ok (), c) := by
  unfold CatalogM.keepIndex
  rw [CatalogM.on_bind_get]
  split
  · next root memo hr => exact .inl ⟨_, .installedVirtuals root (some x), hr, rfl, rfl, rfl⟩
  · next memo hr => exact .inl ⟨_, .virtuals (some x), hr, rfl, rfl, rfl⟩
  · next hinstalled hvirtuals =>
    refine .inr ⟨?_, rfl⟩
    rintro memo ⟨r, hr, hmemo⟩
    cases r with
    | installedVirtuals root memo => exact hinstalled root memo hr
    | virtuals memo => exact hvirtuals memo hr
    | _ => cases hmemo

/-- An index that is not remembered is made of what is collected, and kept. -/
theorem index_on_of_collect {r : Repository} (hr : c.repositories[k]? = some r)
    (hnone : r.index? = some none) {list : List RankedEntry} {c' : Catalog}
    (hcollect : (CatalogM.collect k).on c = (.ok list, c')) :
    (CatalogM.virtualsMemo k).index.on c =
      (.ok (.ofRanked list), ((CatalogM.keepIndex k (.ofRanked list)).on c').2) := by
  rw [CatalogM.index_on hr hnone]
  dsimp only
  rw [CatalogM.on_bind_of_ok hcollect]
  rcases keepIndex_on k (.ofRanked list) c' with ⟨_, _, -, -, -, hkeep⟩ | ⟨-, hkeep⟩
  · rw [CatalogM.on_bind_of_ok hkeep, hkeep]
    rfl
  · rw [CatalogM.on_bind_of_ok hkeep, hkeep]
    rfl

/-- An index that is used is remembered. -/
theorem HasIndex.of_index_on (h : HasIndex k memo c) {x : ProviderIndex} {c' : Catalog}
    (hon : (CatalogM.virtualsMemo k).index.on c = (.ok x, c')) : HasIndex k (some x) c' := by
  obtain ⟨r, hr, hmemo⟩ := h
  cases memo with
  | some y =>
    rw [CatalogM.index_on hr hmemo] at hon
    cases hon
    exact ⟨r, hr, hmemo⟩
  | none =>
    have hcollect := (undisturbed_hasIndex k none).collect k c ⟨r, hr, hmemo⟩
    cases hentries : (CatalogM.collect k).on c with
    | mk result c₁ =>
      rw [hentries] at hcollect
      cases result with
      | error e =>
        rw [CatalogM.index_on hr hmemo] at hon
        dsimp only at hon
        rw [CatalogM.on_bind_of_error hentries] at hon
        cases hon
      | ok entries =>
        rw [index_on_of_collect hr hmemo hentries] at hon
        rcases keepIndex_on k (.ofRanked entries) c₁ with
          ⟨s, s', hs, -, hs', hkeep⟩ | ⟨hnone, -⟩
        · rw [hkeep] at hon
          cases hon
          exact ⟨s', (getElem?_worked hs _ k).trans (if_pos rfl), hs'⟩
        · exact absurd hcollect (hnone none)

theorem HasIndex.index_on {x : ProviderIndex} (h : HasIndex k (some x) c) :
    (CatalogM.virtualsMemo k).index.on c = (.ok x, c) := by
  obtain ⟨r, hr, hmemo⟩ := h
  rw [CatalogM.index_on hr hmemo]
  rfl

/-- Nothing that is asked of any repository drops an index. -/
theorem inquired_hasIndex (k : Nat) (x : ProviderIndex) : Inquired (HasIndex k (some x)) where
  toUndisturbed := undisturbed_hasIndex k (some x)
  built number := by
    by_cases hk : number = k
    · subst hk
      intro c h
      rw [h.index_on]
      exact h
    · refine (undisturbed_hasIndex k (some x)).index fun y c h => ?_
      rcases keepIndex_on number y c with ⟨s, s', hs, -, -, hkeep⟩ | ⟨-, hkeep⟩
      · rw [hkeep]
        exact h.worked_ne hs hk _
      · rw [hkeep]
        exact h

/-- Nor does it change which repositories there are. -/
theorem undisturbed_framed (c₀ : Catalog) : Undisturbed (Framed c₀) where
  warned h _ := ⟨h.files, h.registry, h.repositories⟩
  ebuild {_ _ r _ memo'} h hr _ ws := h.worked (s := .ebuild r memo') hr rfl ws
  installed {_ _ r _ memo'} h hr _ ws := h.worked (s := .installed r memo') hr rfl ws

theorem inquired_framed (c₀ : Catalog) : Inquired (Framed c₀) := by
  refine ⟨undisturbed_framed c₀, fun number => (undisturbed_framed c₀).index fun x c h => ?_⟩
  rcases keepIndex_on number x c with ⟨s, s', hs, hinvalidated, -, hkeep⟩ | ⟨-, hkeep⟩
  · rw [hkeep]
    exact h.worked hs hinvalidated _
  · rw [hkeep]
    exact h

theorem HasIndex.of_framed {c' : Catalog} (h : HasIndex k memo c) (hframed : Framed c c') :
    ∃ memo', HasIndex k memo' c' := by
  obtain ⟨r, hr, hmemo⟩ := h
  obtain ⟨r', hr', hinvalidated⟩ := hframed.exists_invalidated hr
  have hkind := congrArg Repository.kind hinvalidated
  rw [Repository.kind_invalidated, Repository.kind_invalidated] at hkind
  cases r' with
  | installedVirtuals root memo' => exact ⟨memo', _, hr', rfl⟩
  | virtuals memo' => exact ⟨memo', _, hr', rfl⟩
  | _ =>
    cases r with
    | ebuild => cases hmemo
    | installed => cases hmemo
    | _ => cases hkind

/-! ### Answers from an index -/

/-- The repository looks the category up in this index, if it looks anything up, and nothing has to
be built. -/
def LooksUp (k : Nat) (category : Category) (x : ProviderIndex) (c : Catalog) : Prop :=
  ∀ (α : Type) (nothing : α) (query : ProviderIndex → α),
    ((CatalogM.virtualsMemo k).ask category nothing query).on c =
      (.ok (if isVirtual category then query x else nothing), c)

theorem looksUp_of_not_virtual {category : Category} (h : ¬ isVirtual category)
    (x : ProviderIndex) (c : Catalog) : LooksUp k category x c := by
  intro α nothing query
  rw [CatalogM.ask_on, if_neg h, if_neg h]

theorem HasIndex.looksUp {x : ProviderIndex} (h : HasIndex k (some x) c) (category : Category) :
    LooksUp k category x c := by
  intro α nothing query
  rw [CatalogM.ask_on, h.index_on]
  split <;> rfl

/-- The provider whose record is that of a virtual. -/
def provider? (x : ProviderIndex) (n : QualifiedName) (v : Version) : Option VirtualEntry :=
  if isVirtual n.category then x.best n v else none

theorem LooksUp.hasVersion_on {x : ProviderIndex} (h : LooksUp k n.category x c)
    (hindex : HasIndex k memo c) :
    (answer k (.hasVersion n v)).on c = (.ok (provider? x n v).isSome, c) := by
  obtain ⟨r, hr, hmemo⟩ := hindex
  rw [CatalogM.answer_on_virtuals hr hmemo]
  refine (h Bool false (·.hasVersion n v)).trans ?_
  unfold provider?
  split <;> rfl

/-- The best provider, by the entry that is found and by the registry. -/
def foundProvider (c : Catalog) (k : Nat) (n : QualifiedName) (v : Version) :
    Option VirtualEntry → Except Error (VirtualEntry × Nat)
  | none => .error (.noSuchPackage n.text v.text (c.nameOf k))
  | some e =>
    if c.registry.isNone then .error (.configuration .registryGone)
    else match c.fetch e.repository with
      | none => .error (.configuration (.providerGone e.repository))
      | some provider => .ok (e, provider)

theorem foundProvider_eq_ok_iff {best : Option VirtualEntry} {e : VirtualEntry} {provider : Nat} :
    foundProvider c k n v best = .ok (e, provider) ↔
      best = some e ∧ c.fetch e.repository = some provider := by
  unfold foundProvider
  constructor
  · intro h
    split at h
    · cases h
    · split at h
      · cases h
      · split at h
        · cases h
        · next hfetch =>
          cases h
          exact ⟨rfl, hfetch⟩
  · rintro ⟨rfl, hfetch⟩
    have halive : c.registry.isNone = false := by
      cases hregistry : c.registry with
      | some list => rfl
      | none =>
        unfold fetch find? registered at hfetch
        rw [hregistry] at hfetch
        cases hfetch
    dsimp only
    rw [halive, if_neg Bool.false_ne_true, hfetch]

theorem LooksUp.bestProvider_on {x : ProviderIndex} (h : LooksUp k n.category x c) :
    (CatalogM.bestProvider k n v).on c = (foundProvider c k n v (provider? x n v), c) := by
  have hbest : ((CatalogM.virtualsMemo k).ask n.category none (·.best n v)).on c =
      (.ok (provider? x n v), c) := h _ none (·.best n v)
  unfold CatalogM.bestProvider
  rw [CatalogM.on_bind_of_ok hbest]
  cases provider? x n v with
  | none => rfl
  | some e =>
    unfold foundProvider
    cases hregistry : c.registry with
    | none =>
      have hneed := CatalogM.on_discard CatalogM.needRegistry c
      rw [CatalogM.needRegistry_on_of_none hregistry] at hneed
      exact CatalogM.on_bind_of_error hneed _
    | some list =>
      have hneed := CatalogM.on_discard CatalogM.needRegistry c
      rw [CatalogM.needRegistry_on (hregistry ▸ rfl)] at hneed
      dsimp only [Option.isNone_some]
      rw [if_neg Bool.false_ne_true, CatalogM.on_bind_of_ok hneed, CatalogM.on_bind_get]
      cases c.fetch e.repository <;> rfl

/-- What keeps the provider from being found keeps the record from being found. -/
theorem virtualRecord_of_no_provider {e : Error} {c' : Catalog} (hindex : HasIndex k memo c)
    (hbest : (CatalogM.bestProvider k n v).on c = (.error e, c')) :
    (CatalogM.virtualRecord k n v).on c = (.error e, c') := by
  obtain ⟨r, hr, hmemo⟩ := hindex
  unfold CatalogM.virtualRecord
  rw [CatalogM.on_bind_get, hr]
  cases r with
  | installedVirtuals root memo => exact CatalogM.on_bind_of_error hbest _
  | virtuals memo => exact CatalogM.on_bind_of_error hbest _
  | _ => cases hmemo

/-- The record is that of the provider which is found. -/
theorem virtualRecord_on_congr {c' : Catalog} (hindex : HasIndex k memo c) (hframed : Framed c c')
    (hbest : (CatalogM.bestProvider k n v).on c = (CatalogM.bestProvider k n v).on c') :
    (CatalogM.virtualRecord k n v).on c = (CatalogM.virtualRecord k n v).on c' := by
  obtain ⟨r, hr, hmemo⟩ := hindex
  obtain ⟨r', hr', hinvalidated⟩ := hframed.exists_invalidated hr
  unfold CatalogM.virtualRecord
  rw [CatalogM.on_bind_get, CatalogM.on_bind_get, hr, hr']
  cases r with
  | installedVirtuals root memo =>
    cases r' with
    | installedVirtuals root' memo' => exact CatalogM.on_bind_congr hbest fun _ _ _ => rfl
    | _ => cases hinvalidated
  | virtuals memo =>
    cases r' with
    | virtuals memo' => exact CatalogM.on_bind_congr hbest fun _ _ _ => rfl
    | _ => cases hinvalidated
  | _ => cases hmemo

/-- Where no provider is found, there is no record. -/
theorem LooksUp.virtualRecord_on {x : ProviderIndex} (h : LooksUp k n.category x c)
    (hindex : HasIndex k memo c) (hnone : provider? x n v = none) :
    (CatalogM.virtualRecord k n v).on c =
      (.error (.noSuchPackage n.text v.text (c.nameOf k)), c) := by
  have hbest := h.bestProvider_on (v := v)
  rw [hnone] at hbest
  exact virtualRecord_of_no_provider hindex hbest

/-- The record of a virtual, by the kind of the repository. -/
theorem metadata_on (hindex : HasIndex k memo c) :
    (answer k (.metadata n v)).on c = (CatalogM.virtualRecord k n v).on c := by
  obtain ⟨r, hr, hmemo⟩ := hindex
  rw [CatalogM.answer_on_virtuals hr hmemo]
  rfl

/-- The index comes first: without it there is no provider. -/
theorem bestProvider_of_error {e : Error} {c' : Catalog} (hvirtual : isVirtual n.category)
    (hon : (CatalogM.virtualsMemo k).index.on c = (.error e, c')) :
    (CatalogM.bestProvider k n v).on c = (.error e, c') := by
  refine CatalogM.on_bind_of_error ?_ _
  rw [CatalogM.ask_on, if_pos hvirtual, hon]
  rfl

/-- And with it, the provider is the one that is found when it is remembered. -/
theorem bestProvider_of_ok {x : ProviderIndex} {c' : Catalog} (hindex : HasIndex k memo c)
    (hvirtual : isVirtual n.category)
    (hon : (CatalogM.virtualsMemo k).index.on c = (.ok x, c')) :
    (CatalogM.bestProvider k n v).on c = (CatalogM.bestProvider k n v).on c' := by
  have hask : ((CatalogM.virtualsMemo k).ask n.category none (·.best n v)).on c =
      (.ok (x.best n v), c') := by
    rw [CatalogM.ask_on, if_pos hvirtual, hon]
    rfl
  have hask' := (hindex.of_index_on hon).looksUp n.category _ none (·.best n v)
  rw [if_pos hvirtual] at hask'
  unfold CatalogM.bestProvider
  rw [CatalogM.on_bind_of_ok hask, CatalogM.on_bind_of_ok hask']

theorem Framed.of_index_on {x : ProviderIndex} {c' : Catalog}
    (hon : (CatalogM.virtualsMemo k).index.on c = (.ok x, c')) : Framed c c' := by
  have hkept := (inquired_framed c).built k c (.refl c)
  rwa [hon] at hkept

theorem virtualRecord_of_error {e : Error} {c' : Catalog} (hindex : HasIndex k memo c)
    (hvirtual : isVirtual n.category)
    (hon : (CatalogM.virtualsMemo k).index.on c = (.error e, c')) :
    (CatalogM.virtualRecord k n v).on c = (.error e, c') :=
  virtualRecord_of_no_provider hindex (bestProvider_of_error hvirtual hon)

theorem virtualRecord_of_ok {x : ProviderIndex} {c' : Catalog} (hindex : HasIndex k memo c)
    (hvirtual : isVirtual n.category)
    (hon : (CatalogM.virtualsMemo k).index.on c = (.ok x, c')) :
    (CatalogM.virtualRecord k n v).on c = (CatalogM.virtualRecord k n v).on c' :=
  virtualRecord_on_congr hindex (.of_index_on hon) (bestProvider_of_ok hindex hvirtual hon)

/-! ### What does not exist -/

/-- A repository that does not have to build an index to answer. -/
theorem tellsMissing_of_looksUp {x : ProviderIndex} (h : LooksUp k n.category x c)
    (hindex : HasIndex k memo c) (hname : c.nameOf k = r.name) (hvirtuals : r.index?.isSome)
    (hkept : LooksUp k n.category x ((CatalogM.virtualRecord k n v).on c).2) :
    c.TellsMissing k r n v := by
  refine ⟨fun hmissing c' hc' => ?_, fun m hm => ?_, fun hkind => ?_⟩
  · rw [h.hasVersion_on hindex] at hmissing hc'
    obtain rfl : c' = c := by simpa using hc'
    have hnone : provider? x n v = none :=
      Option.not_isSome_iff_eq_none.1 (by simpa using Except.ok.inj hmissing)
    rw [metadata_on hindex, h.virtualRecord_on hindex hnone, hname]
  · have hsome : (provider? x n v).isSome := by
      by_contra hnone
      rw [metadata_on hindex, h.virtualRecord_on hindex (Option.not_isSome_iff_eq_none.1 hnone)]
        at hm
      cases hm
    obtain ⟨memo', hindex'⟩ := hindex.of_framed
      ((inquired_framed c).virtualRecord k n v c (.refl c))
    rw [metadata_on hindex]
    refine List.forall_mem_cons.2 ⟨?_, List.forall_mem_singleton.2 ?_⟩
    · rw [h.hasVersion_on hindex, hsome]
    · rw [hkept.hasVersion_on hindex', hsome]
  · cases r with
    | ebuild r' memo' => cases hvirtuals
    | installed r' memo' => cases hvirtuals
    | _ => rcases hkind with hkind | hkind <;> cases hkind

/-- If the index was built, the answers are those that are given when it is remembered. -/
theorem TellsMissing.of_built {x : ProviderIndex} {c' : Catalog} (hindex : HasIndex k memo c)
    (hvirtual : isVirtual n.category)
    (hon : (CatalogM.virtualsMemo k).index.on c = (.ok x, c')) (h : c'.TellsMissing k r n v) :
    c.TellsMissing k r n v := by
  have hindex' := hindex.of_index_on hon
  have hrecord : (answer k (.metadata n v)).on c = (answer k (.metadata n v)).on c' := by
    rw [metadata_on hindex, metadata_on hindex', virtualRecord_of_ok hindex hvirtual hon]
  have hexists : (answer k (.hasVersion n v)).on c = (answer k (.hasVersion n v)).on c' := by
    rw [(hindex'.looksUp n.category).hasVersion_on hindex']
    obtain ⟨s, hs, hmemo⟩ := hindex
    rw [CatalogM.answer_on hs hmemo (q := .hasVersion n v) rfl, if_pos hvirtual, hon]
    unfold provider?
    rw [if_pos hvirtual]
    rfl
  refine ⟨fun hmissing => ?_, fun m hm => ?_, fun hkind hpresent => ?_⟩
  · rw [hexists] at hmissing ⊢
    rw [List.forall_mem_cons, hrecord]
    exact List.forall_mem_cons.1 (h.missing hmissing)
  · rw [hrecord] at hm ⊢
    rw [List.forall_mem_cons, hexists]
    exact List.forall_mem_cons.1 (h.present m hm)
  · rw [hexists] at hpresent ⊢
    rw [List.forall_mem_cons, hrecord]
    exact List.forall_mem_cons.1 (h.existing hkind hpresent)

theorem virtuals_tellsMissing (hr : c.repositories[k]? = some r) (hmemo : r.index? = some memo) :
    c.TellsMissing k r n v := by
  have hindex : HasIndex k memo c := ⟨r, hr, hmemo⟩
  have hname : c.nameOf k = r.name := by
    unfold nameOf
    rw [hr]
  have hvirtuals : r.index?.isSome := by
    rw [hmemo]
    rfl
  by_cases hvirtual : isVirtual n.category
  · cases hon : (CatalogM.virtualsMemo k).index.on c with
    | mk result c' =>
      cases result with
      | error e =>
        have hhas : ((answer k (.hasVersion n v)).on c).1 = .error e := by
          rw [CatalogM.answer_on hr hmemo (q := .hasVersion n v) rfl, if_pos hvirtual, hon]
          rfl
        have hrecord : ((answer k (.metadata n v)).on c).1 = .error e := by
          rw [metadata_on hindex, virtualRecord_of_error hindex hvirtual hon]
        refine ⟨fun h => ?_, fun m h => ?_, fun _ h => ?_⟩
        · rw [hhas] at h
          cases h
        · rw [hrecord] at h
          cases h
        · rw [hhas] at h
          cases h
      | ok x =>
        have hindex' := hindex.of_index_on hon
        have hframed : Framed c c' := .of_index_on hon
        refine .of_built hindex hvirtual hon ?_
        exact tellsMissing_of_looksUp (hindex'.looksUp n.category) hindex'
          (hframed.nameOf_eq ▸ hname) hvirtuals
          (((inquired_hasIndex k x).virtualRecord k n v c' hindex').looksUp n.category)
  · exact tellsMissing_of_looksUp (looksUp_of_not_virtual hvirtual ⟨#[]⟩ c) hindex hname hvirtuals
      (looksUp_of_not_virtual hvirtual ⟨#[]⟩ _)

/-! ## Every repository -/

/-- Whatever happened before: a version that does not exist has no record, and that is what is
reported; a version with a record exists; and of one that exists in a repository with packages, it
is not reported that it does not. -/
theorem Reached.tellsMissing (h : Reached c) (hr : c.repositories[k]? = some r) (n : QualifiedName)
    (v : Version) : c.TellsMissing k r n v := by
  cases r with
  | ebuild r memo => exact ebuild_tellsMissing (h.wellFormed.getElem? hr) hr
  | installed r memo => exact installed_tellsMissing (h.wellFormed.getElem? hr) hr
  | installedVirtuals root memo => exact virtuals_tellsMissing hr rfl
  | virtuals memo => exact virtuals_tellsMissing hr rfl

/-- A source repository whose profile `a` is selected. -/
def declaringKeys : RepositoryKeys :=
  ⟨[("location", "/r"), ("name", "r"), ("profiles", "/r/profiles/a")]⟩

/-- A repository of each kind.  The source repository is registered, and asked for its categories;
the index of what it declares is built; then its files are gone. -/
def emptiedCatalog : Catalog :=
  [.made .ebuild declaringKeys, .registered 0 0, .made .installed treeKeys,
    .made .installedVirtuals ⟨[("root", "/")]⟩, .made .virtuals ⟨[]⟩,
    .happened (.asked 0 .categories), .happened (.indexed 3), .edited emptyTree].foldl
      act { files := editorTree }

theorem reached_emptiedCatalog : Reached emptiedCatalog := (Reached.start editorTree).foldl _

theorem kinds_emptiedCatalog : emptiedCatalog.repositories.map Repository.kind =
    [.ebuild, .installed, .installedVirtuals, .virtuals] := by decide +kernel

/-- The index that is built has the virtual of the profile. -/
theorem tellsMissing_emptiedCatalog : Reached emptiedCatalog ∧
    (emptiedCatalog.repositories[3]?.bind Repository.index?).join.map
      (fun x => x.entries.toList.map fun e => e.virtualName) = some [editor] ∧
    ∀ k < 4, ∃ r, emptiedCatalog.repositories[k]? = some r ∧
      ∀ n v, emptiedCatalog.TellsMissing k r n v := by
  refine ⟨reached_emptiedCatalog, by decide +kernel, fun k hk => ?_⟩
  have hlength := congrArg List.length kinds_emptiedCatalog
  rw [List.length_map] at hlength
  have hr := List.getElem?_eq_getElem (hlength ▸ hk : k < emptiedCatalog.repositories.length)
  exact ⟨_, hr, Reached.tellsMissing reached_emptiedCatalog hr⟩

end Catalog

end PackageCatalog
