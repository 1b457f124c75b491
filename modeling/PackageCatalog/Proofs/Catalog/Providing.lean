import PackageCatalog.Proofs.Catalog.Collecting
import PackageCatalog.Proofs.Catalog.Missing
import PackageCatalog.Proofs.Virtuals.Order

/-!
# Who provides a declared virtual

`c.Provides g h e` says that the active profile of repository `g` declares a virtual, and that
repository `h` has a version of the package that the declaration names and accepts.  Both are what
the catalogue answers, each question put to it as it is.  An index of declared virtuals holds just
these providers, whatever was asked before and however the files changed
(`Reached.declared_index`):

    a is collected ↔ c.Provides g h a.entry for some g and h as important as a      (mem_gathered)
    the record of a virtual is that of its best provider                   (virtualRecord_of_best)

To collect them is to ask many questions one after another, and each may change what is remembered;
`SaysAs` is what makes the last of them be answered like the first.
-/

namespace PackageCatalog

open CatalogM (Yields answer onEbuild? virtualsMemo)

/-! ## Sources that say the same -/

namespace EbuildRepository

open Scan (Yields)

variable {r : EbuildRepository} {t : FileTree} {start : EbuildMemo}

/-- What is remembered tells of the same packages and the same profile as at the start. -/
abbrev SaysAs (r : EbuildRepository) (t : FileTree) (start : EbuildMemo) : EbuildMemo → Prop :=
  Parts (Index.SaysAs r.index t start.index)
    (r.profiles.Activates t (r.profiles.activeIn t start.profiles))

theorem WellFormed.saysAs_self (h : r.WellFormed start) : r.SaysAs t start start :=
  ⟨.refl h.index.coherent, rfl⟩

theorem versions_yields_start (n : QualifiedName) :
    Yields (r.SaysAs t start) (EbuildMemo.onIndex (r.index.versions n)) t
      (r.index.versionsFrom t start.index n) :=
  onIndex_parts (Index.versions_yields_from n)

theorem metadata_yields_start (n : QualifiedName) (v : Version) :
    Yields (r.SaysAs t start) (EbuildMemo.onIndex (r.index.metadata n v)) t
      (r.index.metadataFrom t start.index n v) :=
  onIndex_parts (Index.metadata_yields_from n v)

theorem virtualPackages_yields_start : Yields (r.SaysAs t start) r.virtualPackages t
    ((r.profiles.activeIn t start.profiles).map Profile.virtualList) :=
  onProfiles_parts ProfileChain.virtuals_yields

/-- The versions of a provider that a declaration accepts, by what is told of them. -/
def acceptedFrom (r : EbuildRepository) (t : FileTree) (memo : EbuildMemo) (atom : Atom)
    (provider : QualifiedName) : Except Error (List Version) :=
  (r.index.versionsFrom t memo.index provider).map fun vs => vs.filter fun v =>
    atom.accepts provider v r.name
      ((r.index.metadataFrom t memo.index provider v).toOption.map (·.slot))

theorem rankedVersions_yields_start (importance : Int) (n provider : QualifiedName) (atom : Atom) :
    Yields (r.SaysAs t start) (rankedVersions importance n provider atom r) t
      ((r.acceptedFrom t start atom provider).map fun vs =>
        vs.map fun v => ⟨importance, n, v, provider, r.name⟩) := by
  unfold rankedVersions
  rw [bind_pure_comp]
  exact (acceptedVersions_yields_of atom (versions_yields_start provider)
    (metadata_yields_start provider)).map _

end EbuildRepository

namespace Catalog

variable {c₀ c : Catalog} {k number : Nat}

/-- Nothing changed since `c₀` but what is remembered, and every source says the same. -/
structure SaysAs (c₀ c : Catalog) : Prop extends Framed c₀ c where
  source : ∀ (number : Nat) (r : EbuildRepository) (memo₀ : EbuildMemo),
    c₀.repositories[number]? = some (.ebuild r memo₀) →
    ∃ memo, c.repositories[number]? = some (.ebuild r memo) ∧ r.SaysAs c₀.files memo₀ memo

namespace SaysAs

theorem refl (h : c.WellFormed) : SaysAs c c where
  toFramed := .refl c
  source _ _ memo hr :=
    have hmemo : EbuildRepository.WellFormed _ memo := h.getElem? hr
    ⟨memo, hr, hmemo.saysAs_self⟩

theorem warned (h : SaysAs c₀ c) (ws : List Warning) : SaysAs c₀ { c with warnings := ws } :=
  ⟨⟨h.files, h.registry, h.repositories⟩, h.source⟩

/-- Work on one repository that leaves it saying the same, if it is a source. -/
theorem worked (h : SaysAs c₀ c) {r s : Repository} (hr : c.repositories[number]? = some r)
    (hinvalidated : s.invalidated = r.invalidated)
    (hsource : ∀ r₀ memo₀, c₀.repositories[number]? = some (.ebuild r₀ memo₀) →
      ∃ memo, s = .ebuild r₀ memo ∧ r₀.SaysAs c₀.files memo₀ memo) (ws : List Warning) :
    SaysAs c₀ (CatalogM.worked c number s ws) where
  toFramed := h.toFramed.worked hr hinvalidated ws
  source m r₀ memo₀ h₀ := by
    rw [getElem?_worked hr]
    by_cases hm : number = m
    · subst hm
      obtain ⟨memo, rfl, hmemo⟩ := hsource r₀ memo₀ h₀
      exact ⟨memo, if_pos rfl, hmemo⟩
    · rw [if_neg hm]
      exact h.source m r₀ memo₀ h₀

/-- To keep an index of virtuals is no work on a source. -/
theorem keepIndex (h : SaysAs c₀ c) (x : ProviderIndex) :
    SaysAs c₀ ((CatalogM.keepIndex number x).on c).2 := by
  rcases keepIndex_on number x c with ⟨r, s, hr, hinvalidated, hs, hon⟩ | ⟨-, hon⟩
  · rw [hon]
    refine h.worked hr hinvalidated (fun r₀ memo₀ h₀ => ?_) c.warnings
    obtain ⟨memo, hr', -⟩ := h.source number r₀ memo₀ h₀
    obtain rfl : r = .ebuild r₀ memo := Option.some_inj.1 (hr.symm.trans hr')
    cases s with
    | ebuild => cases hs
    | installed => cases hs
    | _ => cases hinvalidated
  · rw [hon]
    exact h

end SaysAs

/-- What is found in a source is found there as long as all sources say the same. -/
theorem onEbuild?_saysAs {α : Type} {work : EbuildRepository → Scan EbuildMemo α}
    (hwork : ∀ r t start, ∃ result, Scan.Yields (r.SaysAs t start) (work r) t result)
    (h : c₀.WellFormed) (number : Nat) :
    Yields (SaysAs c₀) (onEbuild? number work) ((onEbuild? number work).on c₀).1 := by
  intro c hc
  by_cases h₀ : ∃ r memo₀, c₀.repositories[number]? = some (.ebuild r memo₀)
  · obtain ⟨r, memo₀, h₀⟩ := h₀
    obtain ⟨memo, hr, hmemo⟩ := hc.source number r memo₀ h₀
    obtain ⟨result, hresult⟩ := hwork r c₀.files memo₀
    have hmemo₀ : r.WellFormed memo₀ := h.getElem? h₀
    obtain ⟨hfound₀, -⟩ := hresult ⟨memo₀, c₀.warnings⟩ hmemo₀.saysAs_self
    obtain ⟨hfound, hmemo'⟩ := hresult ⟨memo, c.warnings⟩ hmemo
    rw [CatalogM.onEbuild?_on_of_eq hr, CatalogM.onEbuild?_on_of_eq h₀, hc.files]
    refine ⟨congrArg (Except.map some) (hfound.trans hfound₀.symm), hc.worked hr ?_ ?_ _⟩
    · rfl
    · intro r₁ memo₁ h₁
      cases h₀.symm.trans h₁
      exact ⟨_, rfl, hmemo'⟩
  · have hnone : ∀ r memo, c₀.repositories[number]? ≠ some (.ebuild r memo) :=
      fun r memo hr => h₀ ⟨r, memo, hr⟩
    rw [CatalogM.onEbuild?_on_of_ne hnone, CatalogM.onEbuild?_on_of_ne (hc.not_ebuild hnone)]
    exact ⟨rfl, hc⟩

/-! ## Providers -/

/-- The packages of a repository that holds neither installed packages nor virtuals may provide
virtuals. -/
def HasPackages (c : Catalog) (number : Nat) : Prop :=
  ∃ r, c.repositories[number]? = some r ∧ r.can .installed = false ∧ r.kind.format ≠ "virtuals"

/-- The slot in the record that a repository has of a package version, if there is one. -/
def slotOf (c : Catalog) (number : Nat) (n : QualifiedName) (v : Version) : Option Slot :=
  ((answer number (.metadata n v)).on c).1.toOption.map (·.slot)

/-- What the active profile of a repository declares; nothing if the repository has no profiles. -/
def declarationsOf (c : Catalog) (g : Registered) :
    Except Error (Option (List (QualifiedName × Atom))) :=
  ((onEbuild? g.number (·.virtualPackages)).on c).1

/-- The active profile of a registered repository maps a virtual to a default provider. -/
def Declares (c : Catalog) (g : Registered) (n : QualifiedName) (atom : Atom) : Prop :=
  g ∈ c.registered ∧ ∃ declarations,
    c.declarationsOf g = .ok (some declarations) ∧ (n, atom) ∈ declarations

/-- A registered repository with packages has a version of a provider, and the declaration accepts
it. -/
structure Accepts (c : Catalog) (h : Registered) (atom : Atom) (e : VirtualEntry) : Prop where
  registered : h ∈ c.registered
  packages : c.HasPackages h.number
  repository : e.repository = c.nameOf h.number
  version : ∃ vs, ((answer h.number (.versions e.provider)).on c).1 = .ok vs ∧ e.version ∈ vs
  accepted : atom.accepts e.provider e.version e.repository
    (c.slotOf h.number e.provider e.version) = true

/-- One repository declares a virtual, and another, or the same, has a provider of it. -/
def Provides (c : Catalog) (g h : Registered) (e : VirtualEntry) : Prop :=
  ∃ atom, c.Declares g e.virtualName atom ∧ atom.qualifiedName = .ok e.provider ∧
    c.Accepts h atom e

theorem Provides.declares {g h : Registered} {e : VirtualEntry} (hprovides : c.Provides g h e) :
    g ∈ c.registered := by
  obtain ⟨_, ⟨hg, -⟩, -⟩ := hprovides
  exact hg

theorem hasPackages_iff : c.HasPackages number ↔
    ∃ r memo, c.repositories[number]? = some (.ebuild r memo) := by
  constructor
  · rintro ⟨r, hr, hinstalled, hvirtuals⟩
    cases r with
    | ebuild r memo => exact ⟨r, memo, hr⟩
    | installed => cases hinstalled
    | installedVirtuals => cases hinstalled
    | virtuals => exact absurd rfl hvirtuals
  · rintro ⟨r, memo, hr⟩
    exact ⟨_, hr, rfl, show RepositoryKind.ebuild.format ≠ "virtuals" by decide⟩

theorem mem_ranked {g : Registered} : g ∈ c.ranked ↔ g ∈ c.registered :=
  c.perm_ranked.mem_iff

section
variable {r : EbuildRepository} {memo : EbuildMemo} {h : Registered} {n provider : QualifiedName}
  {v : Version} {atom : Atom} {e : VirtualEntry}

theorem nameOf_of_ebuild (hr : c.repositories[number]? = some (.ebuild r memo)) :
    c.nameOf number = r.name := by
  unfold nameOf
  rw [hr]
  rfl

theorem versions_answer (hc : c.WellFormed)
    (hr : c.repositories[number]? = some (.ebuild r memo)) (n : QualifiedName) :
    ((answer number (.versions n)).on c).1 = r.index.versionsFrom c.files memo.index n := by
  have hmemo : r.WellFormed memo := hc.getElem? hr
  rw [CatalogM.answer_on_ebuild hr]
  exact (EbuildRepository.versions_yields_start n ⟨memo, c.warnings⟩ hmemo.saysAs_self).1

theorem metadata_answer (hc : c.WellFormed)
    (hr : c.repositories[number]? = some (.ebuild r memo)) (n : QualifiedName) (v : Version) :
    ((answer number (.metadata n v)).on c).1 = r.index.metadataFrom c.files memo.index n v := by
  have hmemo : r.WellFormed memo := hc.getElem? hr
  rw [CatalogM.answer_on_ebuild hr]
  exact (EbuildRepository.metadata_yields_start n v ⟨memo, c.warnings⟩ hmemo.saysAs_self).1

/-- The entries that a repository adds to a declared virtual, asked of the catalogue as it is. -/
def entriesFrom (c : Catalog) (h : Registered) (n provider : QualifiedName) (atom : Atom) :
    Except Error (Option (List RankedEntry)) :=
  ((onEbuild? h.number (EbuildRepository.rankedVersions h.importance n provider atom)).on c).1

theorem entriesFrom_eq (hc : c.WellFormed)
    (hr : c.repositories[h.number]? = some (.ebuild r memo)) (n provider : QualifiedName)
    (atom : Atom) : c.entriesFrom h n provider atom =
      ((r.acceptedFrom c.files memo atom provider).map fun vs =>
        vs.map fun v => ⟨h.importance, n, v, provider, r.name⟩).map some := by
  have hmemo : r.WellFormed memo := hc.getElem? hr
  unfold entriesFrom
  rw [CatalogM.onEbuild?_on_of_eq hr]
  exact congrArg (Except.map some) (EbuildRepository.rankedVersions_yields_start h.importance n
    provider atom ⟨memo, c.warnings⟩ hmemo.saysAs_self).1

theorem entriesFrom_of_ne
    (hr : ¬ ∃ r memo, c.repositories[h.number]? = some (.ebuild r memo)) :
    c.entriesFrom h n provider atom = .ok none := by
  unfold entriesFrom
  rw [CatalogM.onEbuild?_on_of_ne fun r memo hr' => hr ⟨r, memo, hr'⟩]

/-- What a source says is what makes it have a provider. -/
theorem accepts_iff (hc : c.WellFormed) (hr : c.repositories[h.number]? = some (.ebuild r memo))
    (hh : h ∈ c.registered) : c.Accepts h atom e ↔ e.repository = r.name ∧
      ∃ vs, r.acceptedFrom c.files memo atom e.provider = .ok vs ∧ e.version ∈ vs := by
  have hname := nameOf_of_ebuild hr
  have hslot : c.slotOf h.number e.provider e.version =
      (r.index.metadataFrom c.files memo.index e.provider e.version).toOption.map (·.slot) := by
    unfold slotOf
    rw [metadata_answer hc hr]
  constructor
  · rintro ⟨-, -, hrepository, ⟨vs, hvs, hv⟩, haccepted⟩
    rw [versions_answer hc hr] at hvs
    rw [hslot, hrepository, hname] at haccepted
    exact ⟨hrepository.trans hname, _, Scan.map_eq_ok_iff.2 ⟨vs, hvs, rfl⟩,
      List.mem_filter.2 ⟨hv, haccepted⟩⟩
  · rintro ⟨hrepository, vs, hvs, hv⟩
    obtain ⟨all, hall, rfl⟩ := Scan.map_eq_ok_iff.1 hvs
    obtain ⟨hv, haccepted⟩ := List.mem_filter.1 hv
    refine ⟨hh, hasPackages_iff.2 ⟨r, memo, hr⟩, hrepository.trans hname.symm, ⟨all, ?_, hv⟩, ?_⟩
    · rw [versions_answer hc hr]
      exact hall
    · rw [hslot, hrepository]
      exact haccepted

/-- The entries that one repository adds to a declared virtual. -/
theorem mem_entriesFrom (hc : c.WellFormed) (hh : h ∈ c.registered) {a : RankedEntry} :
    (∃ bs, c.entriesFrom h n provider atom = .ok (some bs) ∧ a ∈ bs) ↔
      a.importance = h.importance ∧ a.entry.virtualName = n ∧ a.entry.provider = provider ∧
        c.Accepts h atom a.entry := by
  by_cases hr : ∃ r memo, c.repositories[h.number]? = some (.ebuild r memo)
  · obtain ⟨r, memo, hr⟩ := hr
    rw [entriesFrom_eq hc hr, accepts_iff hc hr hh]
    constructor
    · rintro ⟨bs, hbs, ha⟩
      obtain ⟨found, hfound, hsome⟩ := Scan.map_eq_ok_iff.1 hbs
      cases hsome
      obtain ⟨vs, hvs, rfl⟩ := Scan.map_eq_ok_iff.1 hfound
      obtain ⟨v, hv, rfl⟩ := List.mem_map.1 ha
      exact ⟨rfl, rfl, rfl, rfl, vs, hvs, hv⟩
    · obtain ⟨importance, n', v, provider', repository⟩ := a
      rintro ⟨rfl, rfl, rfl, rfl, vs, hvs, hv⟩
      rw [hvs]
      exact ⟨_, rfl, List.mem_map.2 ⟨v, hv, rfl⟩⟩
  · rw [entriesFrom_of_ne hr]
    constructor
    · rintro ⟨bs, hbs, -⟩
      cases hbs
    · rintro ⟨-, -, -, haccepts⟩
      exact absurd (hasPackages_iff.1 haccepts.packages) hr

end

/-! ## Collecting the providers -/

/-- What is collected if each question is put to the catalogue as it is. -/
def gathered (c : Catalog) : Except Error (List RankedEntry) :=
  collected c.ranked c.declarationsOf c.entriesFrom

/-- The registry is there, and nothing fails that the declared virtuals are made of. -/
structure ReadsSucceed (c : Catalog) : Prop where
  registry : c.registry.isSome
  declarations : ∀ g ∈ c.registered, ∃ found, c.declarationsOf g = .ok found
  versions : ∀ g n atom provider, c.Declares g n atom → atom.qualifiedName = .ok provider →
    ∀ h ∈ c.registered, c.HasPackages h.number → ∃ vs,
      ((answer h.number (.versions provider)).on c).1 = .ok vs

/-- What is collected of the declarations of one repository. -/
theorem mem_gatheredBy (hc : c.WellFormed) {g : Registered} (hg : g ∈ c.registered)
    {list : List RankedEntry}
    (hlist : collectedBy c.ranked c.declarationsOf c.entriesFrom g = .ok list) {a : RankedEntry} :
    a ∈ list ↔ ∃ h, c.Provides g h a.entry ∧ a.importance = h.importance := by
  rw [mem_collectedBy hlist]
  constructor
  · rintro ⟨declarations, hdeclared, ⟨n, atom⟩, hmem, provider, hprovider, h, hh, hbs⟩
    obtain ⟨himportance, rfl, rfl, haccepts⟩ := (mem_entriesFrom hc (mem_ranked.1 hh)).1 hbs
    exact ⟨h, ⟨atom, ⟨hg, declarations, hdeclared, hmem⟩, hprovider, haccepts⟩, himportance⟩
  · rintro ⟨h, ⟨atom, ⟨-, declarations, hdeclared, hmem⟩, hprovider, haccepts⟩, himportance⟩
    exact ⟨declarations, hdeclared, _, hmem, _, hprovider, h, mem_ranked.2 haccepts.registered,
      (mem_entriesFrom hc haccepts.registered).2 ⟨himportance, rfl, rfl, haccepts⟩⟩

theorem gatheredBy_of_gathered {list : List RankedEntry} (hlist : c.gathered = .ok list)
    {g : Registered} (hg : g ∈ c.registered) :
    ∃ bs, collectedBy c.ranked c.declarationsOf c.entriesFrom g = .ok bs := by
  obtain ⟨lists, hlists, -⟩ := Scan.map_eq_ok_iff.1 hlist
  obtain ⟨bs, -, hbs⟩ := (Scan.mapM_spec hlists).1 g (mem_ranked.2 hg)
  exact ⟨bs, hbs⟩

theorem mem_gathered (hc : c.WellFormed) {list : List RankedEntry} (hlist : c.gathered = .ok list)
    {a : RankedEntry} :
    a ∈ list ↔ ∃ g h, c.Provides g h a.entry ∧ a.importance = h.importance := by
  rw [mem_flatten_mapM hlist]
  constructor
  · rintro ⟨g, hg, bs, hbs, ha⟩
    exact ⟨g, (mem_gatheredBy hc (mem_ranked.1 hg) hbs).1 ha⟩
  · rintro ⟨g, h, hprovides, himportance⟩
    have hg : g ∈ c.registered := hprovides.declares
    obtain ⟨bs, hbs⟩ := gatheredBy_of_gathered hlist hg
    exact ⟨g, mem_ranked.2 hg, bs, hbs,
      (mem_gatheredBy hc hg hbs).2 ⟨h, hprovides, himportance⟩⟩

theorem ReadsSucceed.gathered_isOk (h : c.ReadsSucceed) (hc : c.WellFormed) :
    ∃ list, c.gathered = .ok list := by
  refine collected_isOk (fun g hg => h.declarations g (mem_ranked.1 hg)) ?_
  intro g hg declarations hdeclared ⟨n, atom⟩ hmem provider hprovider g' hg'
  by_cases hr : ∃ r memo, c.repositories[g'.number]? = some (.ebuild r memo)
  · obtain ⟨r, memo, hr⟩ := hr
    obtain ⟨vs, hvs⟩ := h.versions g n atom provider
      ⟨mem_ranked.1 hg, declarations, hdeclared, hmem⟩ hprovider g' (mem_ranked.1 hg')
      (hasPackages_iff.2 ⟨r, memo, hr⟩)
    rw [versions_answer hc hr] at hvs
    rw [entriesFrom_eq hc hr, EbuildRepository.acceptedFrom, hvs]
    exact ⟨_, rfl⟩
  · exact ⟨none, entriesFrom_of_ne hr⟩

/-- Whatever was asked in between, what is declared is collected as from the start. -/
theorem declaredEntries_saysAs (hc : c₀.WellFormed) (halive : c₀.registry.isSome) :
    Yields (SaysAs c₀) CatalogM.declaredEntries c₀.gathered := by
  refine CatalogM.declaredEntries_yields_collected ?_ (fun _ ws h => h.warned ws)
    (fun g => onEbuild?_saysAs (fun _ _ _ => ⟨_, EbuildRepository.virtualPackages_yields_start⟩) hc _)
    fun g n provider atom => onEbuild?_saysAs
      (fun _ _ _ => ⟨_, EbuildRepository.rankedVersions_yields_start _ _ _ _⟩) hc _
  intro c h
  rw [CatalogM.needRegistry_on (h.registry ▸ halive)]
  exact ⟨congrArg Except.ok h.ranked_eq, h⟩

theorem collect_declared (hc : c₀.WellFormed) (halive : c₀.registry.isSome)
    (hk : c₀.repositories[k]? = some (.virtuals none)) :
    ∃ c', (CatalogM.collect k).on c₀ = (c₀.gathered, c') ∧ SaysAs c₀ c' := by
  obtain ⟨c', hc', hsame⟩ := (declaredEntries_saysAs hc halive).on_eq (.refl hc)
  refine ⟨c', ?_, hsame⟩
  unfold CatalogM.collect
  rw [CatalogM.on_bind_get, hk]
  exact hc'

/-- The index that is built holds what is collected. -/
theorem index_of_gathered (hc : c.WellFormed) (halive : c.registry.isSome)
    (hk : c.repositories[k]? = some (.virtuals none)) {list : List RankedEntry}
    (hlist : c.gathered = .ok list) :
    ∃ c', (virtualsMemo k).index.on c = (.ok (.ofRanked list), c') ∧ SaysAs c c' := by
  obtain ⟨c₁, hcollect, hsame⟩ := collect_declared hc halive hk
  rw [hlist] at hcollect
  exact ⟨_, index_on_of_collect hk rfl hcollect, hsame.keepIndex _⟩

/-! ## The best provider -/

/-- A provider from the most important of the repositories that provide this version of the virtual,
and with the greatest name in them. -/
structure IsBest (c : Catalog) (h : Registered) (e : VirtualEntry) : Prop where
  provides : ∃ g, c.Provides g h e
  best : ∀ g' h' e', c.Provides g' h' e' → e'.virtualName = e.virtualName →
    e'.version = e.version → RankedEntry.AtLeast ⟨h.importance, e⟩ ⟨h'.importance, e'⟩

/-- The index finds it. -/
theorem best_of_gathered (hc : c.WellFormed) {list : List RankedEntry}
    (hlist : c.gathered = .ok list) {g h : Registered} {e : VirtualEntry}
    (hprovides : c.Provides g h e) : ∃ h' e', e'.virtualName = e.virtualName ∧
      e'.version = e.version ∧ c.IsBest h' e' ∧
      (ProviderIndex.ofRanked list).best e.virtualName e.version = some e' := by
  have hfirst := bestFirst_sortedEntries list e.virtualName e.version
  unfold ProviderIndex.best
  rw [ProviderIndex.ofVersion_ofRanked]
  have hfound {h' : Registered} {g' : Registered} {e' : VirtualEntry}
      (hprovides' : c.Provides g' h' e') (hname : e'.virtualName = e.virtualName)
      (hversion : e'.version = e.version) :
      (⟨h'.importance, e'⟩ : RankedEntry) ∈ (sortedEntries list).filter fun r =>
        r.entry.virtualName = e.virtualName ∧ r.entry.version = e.version :=
    hfirst.perm.mem_iff.2 (List.mem_filter.2 ⟨(mem_gathered hc hlist).2
      ⟨g', h', hprovides', rfl⟩, decide_eq_true ⟨hname, hversion⟩⟩)
  cases hsorted : (sortedEntries list).filter fun r =>
      r.entry.virtualName = e.virtualName ∧ r.entry.version = e.version with
  | nil =>
    have hmem := hfound hprovides rfl rfl
    rw [hsorted] at hmem
    cases hmem
  | cons a rest =>
    have hmem : a ∈ (sortedEntries list).filter fun r =>
        r.entry.virtualName = e.virtualName ∧ r.entry.version = e.version :=
      hsorted ▸ List.mem_cons_self
    obtain ⟨ha, hof⟩ := List.mem_filter.1 (hfirst.perm.mem_iff.1 hmem)
    obtain ⟨hname, hversion⟩ := of_decide_eq_true hof
    obtain ⟨g', h', hprovides', himportance⟩ := (mem_gathered hc hlist).1 ha
    refine ⟨h', a.entry, hname, hversion, ⟨⟨g', hprovides'⟩, ?_⟩, rfl⟩
    intro g'' h'' e'' hprovides'' hname'' hversion''
    rw [← himportance]
    have hother := hfound hprovides'' (hname''.trans hname) (hversion''.trans hversion)
    have hdescending := hfirst.descending
    rw [hsorted] at hother hdescending
    rcases List.mem_cons.1 hother with heq | hrest
    · rw [heq]
      exact .inr ⟨rfl, by rw [Std.ReflOrd.compare_self]; rfl⟩
    · exact (List.pairwise_cons.1 hdescending).1 _ hrest

/-! ## Its record -/

/-- A registered repository is found by its name. -/
theorem WellFormed.fetch_nameOf (hc : c.WellFormed) {g : Registered} (hg : g ∈ c.registered) :
    c.fetch (c.nameOf g.number) = some g.number := by
  unfold fetch
  rw [hc.find?_nameOf hg]
  rfl

/-- The record that a source has of a virtual is made of that of the provider. -/
theorem virtualMetadata_yields_start {r : EbuildRepository} {t : FileTree} {start : EbuildMemo}
    {e : VirtualEntry} (hrepository : e.repository = r.name) :
    Scan.Yields (r.SaysAs t start) (r.virtualMetadata e) t
      (r.index.metadataFrom t start.index e.provider e.version >>=
        Metadata.forVirtual e.virtualName e.provider e.version) := by
  have hother : (e.repository != r.name) = false := by
    rw [hrepository]
    exact bne_self_eq_false r.name
  unfold EbuildRepository.virtualMetadata
  rw [hother]
  refine (EbuildRepository.onIndex_parts
    (Index.metadata_yields_from e.provider e.version |>.bind fun m _ => ?_))
  cases Metadata.forVirtual e.virtualName e.provider e.version m with
  | ok record => exact Scan.yields_pure record
  | error e => exact Scan.yields_throw e

section
variable {x : ProviderIndex} {n : QualifiedName} {v : Version} {e : VirtualEntry} {h : Registered}

/-- The record of a virtual is that of the provider which the index puts first. -/
theorem virtualRecord_of_best (hc : c.WellFormed)
    (hk : c.repositories[k]? = some (.virtuals none)) {c' : Catalog} (hsame : SaysAs c c')
    (hindex : HasIndex k (some x) c') (hvirtual : isVirtual n.category)
    (hbest : x.best n v = some e) (hh : h ∈ c.registered) (hpackages : c.HasPackages h.number)
    (hrepository : e.repository = c.nameOf h.number) :
    ((CatalogM.virtualRecord k n v).on c').1 =
      ((answer h.number (.metadata e.provider e.version)).on c).1 >>=
        Metadata.forVirtual e.virtualName e.provider e.version := by
  have hfetch : c'.fetch e.repository = some h.number := by
    rw [hsame.fetch_eq, hrepository, hc.fetch_nameOf hh]
  have hfound : provider? x n v = some e := (if_pos hvirtual).trans hbest
  have hprovider := (hindex.looksUp n.category).bestProvider_on (v := v)
  rw [foundProvider_eq_ok_iff.2 ⟨hfound, hfetch⟩] at hprovider
  obtain ⟨memo', hk'⟩ := hsame.virtuals ⟨none, hk⟩
  obtain ⟨r, memo, hr⟩ := hasPackages_iff.1 hpackages
  have hrecord : ((onEbuild? h.number (·.virtualMetadata e)).on c').1 =
      (((answer h.number (.metadata e.provider e.version)).on c).1 >>=
        Metadata.forVirtual e.virtualName e.provider e.version).map some := by
    obtain ⟨memo', hr', hmemo'⟩ := hsame.source h.number r memo hr
    rw [CatalogM.onEbuild?_on_of_eq hr', metadata_answer hc hr, hsame.files]
    exact congrArg (Except.map some) (virtualMetadata_yields_start
      (hrepository.trans (nameOf_of_ebuild hr)) ⟨memo', c'.warnings⟩ hmemo').1
  unfold CatalogM.virtualRecord
  rw [CatalogM.on_bind_get, hk']
  dsimp only
  unfold CatalogM.declaredRecord CatalogM.recordBy
  rw [CatalogM.on_bind_of_ok hprovider]
  dsimp only
  rw [CatalogM.on_bind_of_found (g := id) (Prod.ext hrecord rfl) fun _ => rfl, Except.map_id]
  rfl

end

/-! ## The index of declared virtuals -/

/-- If nothing fails that is asked for, the index of declared virtuals holds exactly the declared
providers, and the record of a virtual is that of the best of them. -/
theorem Reached.declared_index (hreached : Reached c)
    (hk : c.repositories[k]? = some (.virtuals none)) (hreads : c.ReadsSucceed) :
    ∃ x, ((virtualsMemo k).index.on c).1 = .ok x ∧
      (∀ e, e ∈ x.entries.toList ↔ ∃ g h, c.Provides g h e) ∧
      ∀ n v, isVirtual n.category →
        (∃ g h e, c.Provides g h e ∧ e.virtualName = n ∧ e.version = v) →
        ∃ h e, c.IsBest h e ∧ e.virtualName = n ∧ e.version = v ∧
          ((answer k (.metadata n v)).on c).1 =
            ((answer h.number (.metadata e.provider v)).on c).1 >>=
              Metadata.forVirtual n e.provider v := by
  have hc := hreached.wellFormed
  obtain ⟨list, hlist⟩ := hreads.gathered_isOk hc
  obtain ⟨c', hon, hsame⟩ := index_of_gathered hc hreads.registry hk hlist
  have hindex : HasIndex k none c := ⟨_, hk, rfl⟩
  refine ⟨.ofRanked list, congrArg Prod.fst hon, fun e => ?_, ?_⟩
  · rw [toList_ofRanked, List.mem_map]
    constructor
    · rintro ⟨a, ha, rfl⟩
      obtain ⟨g, h, hprovides, -⟩ :=
        (mem_gathered hc hlist).1 ((perm_sortedEntries list).mem_iff.1 ha)
      exact ⟨g, h, hprovides⟩
    · rintro ⟨g, h, hprovides⟩
      exact ⟨⟨h.importance, e⟩, (perm_sortedEntries list).mem_iff.2
        ((mem_gathered hc hlist).2 ⟨g, h, hprovides, rfl⟩), rfl⟩
  · rintro n v hvirtual ⟨g, h, e, hprovides, rfl, rfl⟩
    obtain ⟨h', e', hname, hversion, hbest, hfound⟩ := best_of_gathered hc hlist hprovides
    obtain ⟨g', atom, -, -, haccepts⟩ := hbest.provides
    refine ⟨h', e', hbest, hname, hversion, ?_⟩
    rw [metadata_on hindex, virtualRecord_of_ok hindex hvirtual hon,
      virtualRecord_of_best hc hk hsame (hindex.of_index_on hon) hvirtual hfound
        haccepts.registered haccepts.packages haccepts.repository, hname, hversion]

/-- The profile that declares the virtual is the default, and the package is there. -/
def declaringCatalog : Catalog :=
  ((({ files := editorTree } : Catalog).act (.made .ebuild declaringKeys)).act
    (.registered 0 0)).act (.made .virtuals ⟨[]⟩)

theorem reached_declaringCatalog : Reached declaringCatalog :=
  .acted _ (.acted _ (.acted _ (.start editorTree)))

/-- Whether the source has versions of a provider. -/
def versionsFound (atom : Atom) : Option Bool :=
  atom.qualifiedName.toOption.map fun provider =>
    ((answer 0 (.versions provider)).on declaringCatalog).1.toOption.isSome

theorem declaringCatalog_declares : ∃ declarations,
    ((onEbuild? 0 (·.virtualPackages)).on declaringCatalog).1 = .ok (some declarations) ∧
      declarations.map (fun d => versionsFound d.2) = [some true] := by
  have hfound : ((onEbuild? 0 (·.virtualPackages)).on declaringCatalog).1.toOption.join.map
      (fun declarations => declarations.map fun d => versionsFound d.2) = some [some true] := by
    decide +kernel
  obtain ⟨declarations, hdeclarations, hversions⟩ := Option.map_eq_some_iff.1 hfound
  refine ⟨declarations, ?_, hversions⟩
  cases hresult : ((onEbuild? 0 (·.virtualPackages)).on declaringCatalog).1 with
  | ok found =>
    rw [hresult] at hdeclarations
    exact congrArg Except.ok hdeclarations
  | error e =>
    rw [hresult] at hdeclarations
    cases hdeclarations

theorem readsSucceed_declaringCatalog : declaringCatalog.ReadsSucceed := by
  have hzero : ∀ g ∈ declaringCatalog.registered, g.number = 0 := by decide +kernel
  obtain ⟨declarations, hdeclarations, hversions⟩ := declaringCatalog_declares
  refine ⟨by decide +kernel, fun g hg => ?_, ?_⟩
  · rw [declarationsOf, hzero g hg]
    exact ⟨_, hdeclarations⟩
  · rintro g n atom provider ⟨hg, declarations', hdeclarations', hmem⟩ hprovider h hh -
    rw [declarationsOf, hzero g hg, hdeclarations] at hdeclarations'
    cases hdeclarations'
    have hfound : versionsFound atom ∈ declarations.map (fun d => versionsFound d.2) :=
      List.mem_map.2 ⟨_, hmem, rfl⟩
    rw [hversions, List.mem_singleton, versionsFound, hprovider] at hfound
    rw [hzero h hh]
    cases hresult : ((answer 0 (.versions provider)).on declaringCatalog).1 with
    | ok vs => exact ⟨vs, rfl⟩
    | error e =>
      have hsome : ((answer 0 (.versions provider)).on declaringCatalog).1.toOption.isSome = true :=
        Option.some_inj.1 hfound
      rw [hresult] at hsome
      cases hsome

theorem declared_index_declaringCatalog : Reached declaringCatalog ∧
    declaringCatalog.repositories[1]? = some (.virtuals none) ∧ declaringCatalog.ReadsSucceed ∧
    ∃ x, ((virtualsMemo 1).index.on declaringCatalog).1 = .ok x ∧
      ∀ e, e ∈ x.entries.toList ↔ ∃ g h, declaringCatalog.Provides g h e := by
  have hk : declaringCatalog.repositories[1]? = some (.virtuals none) := rfl
  obtain ⟨x, hx, hentries, -⟩ :=
    Reached.declared_index reached_declaringCatalog hk readsSucceed_declaringCatalog
  exact ⟨reached_declaringCatalog, hk, readsSucceed_declaringCatalog, x, hx, hentries⟩

end Catalog

end PackageCatalog
