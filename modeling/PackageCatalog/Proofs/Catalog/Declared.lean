import PackageCatalog.Proofs.Catalog.Collecting

/-!
# What a catalogue declares

The declared virtuals of a catalogue are a function of its files, its registry and the profiles that
are active in its source repositories:

    c.declared = declaredBy c.files c.sources

Nothing that a repository remembers besides comes into it.  `Steady k c₀ c` says that `c` may have
come from `c₀` by questions; whatever is done then, collecting what is declared gives the same
(`declaredEntries_yields`), and every question leaves the catalogue steady (`inquired_steady`).
-/

namespace PackageCatalog

/-! ## Declarations -/

/-- A registered source repository, with the profile that is active in it. -/
structure Source where
  importance : Int
  repository : EbuildRepository
  profile : Except Error Profile

/-- The entries of one declared virtual: the accepted versions of its provider in all sources. -/
def entriesOf (t : FileTree) (sources : List Source) (virtualName provider : QualifiedName)
    (atom : Atom) : Except Error (List RankedEntry) :=
  .map List.flatten <| sources.mapM fun s =>
    (s.repository.acceptedIn t atom provider).map fun versions => versions.map fun v =>
      ⟨s.importance, virtualName, v, provider, s.repository.name⟩

/-- What the active profile of one source declares; a declaration without the name of a package
declares nothing. -/
def declaredIn (t : FileTree) (sources : List Source) (s : Source) :
    Except Error (List RankedEntry) := do
  let declared := (← s.profile).virtualList
  .map List.flatten <| declared.mapM fun (virtualName, atom) =>
    match atom.qualifiedName with
    | .ok provider => entriesOf t sources virtualName provider atom
    | .error _ => .ok []

def declaredBy (t : FileTree) (sources : List Source) : Except Error (List RankedEntry) :=
  .map List.flatten <| sources.mapM (declaredIn t sources)

/-- The profile that is active in a source repository. -/
def Repository.active? (t : FileTree) : Repository → Option (Except Error Profile)
  | .ebuild r memo => some (r.profiles.activeIn t memo.profiles)
  | _ => none

theorem Repository.active?_eq_none {t : FileTree} {r : Repository} (h : r.kind ≠ .ebuild) :
    r.active? t = none := by
  cases r <;> first | rfl | exact absurd rfl h

namespace Catalog

/-- The source that a registered repository is, if it is one. -/
def source? (c : Catalog) (g : Registered) : Option Source :=
  match c.repositories[g.number]? with
  | some (.ebuild r memo) => some ⟨g.importance, r, r.profiles.activeIn c.files memo.profiles⟩
  | _ => none

theorem importance_of_source? {c : Catalog} {g : Registered} {s : Source}
    (h : c.source? g = some s) : s.importance = g.importance := by
  unfold source? at h
  split at h
  · cases h
    rfl
  · cases h

/-- The registered source repositories, the more important first. -/
def sources (c : Catalog) : List Source := c.ranked.filterMap c.source?

def declared (c : Catalog) : Except Error (List RankedEntry) := declaredBy c.files c.sources

/-- The index of virtuals that the profiles declare which are active now. -/
def builtIndex (c : Catalog) : Except Error ProviderIndex := c.declared.map .ofRanked

end Catalog

/-! ## Questions to an index -/

/-- A question that an index of virtuals answers by itself: what it is asked, and the answer for
other categories than `virtual`. -/
structure ProviderQuery (α : Type) where
  category : Category
  nothing : α
  query : ProviderIndex → α

def ProviderQuery.answer {α : Type} (p : ProviderQuery α) (x : Except Error ProviderIndex) :
    Except Error α :=
  if isVirtual p.category then x.map p.query else .ok p.nothing

def Question.provider? {α : Type} : Question α → Option (ProviderQuery α)
  | .hasCategory c => some ⟨c, false, (·.hasCategory c)⟩
  | .packages c => some ⟨c, [], (·.packages c)⟩
  | .hasPackage n => some ⟨n.category, false, (·.hasPackage n)⟩
  | .versions n => some ⟨n.category, [], (·.versions n)⟩
  | .hasVersion n v => some ⟨n.category, false, (·.hasVersion n v)⟩
  | .categories => none
  | .metadata .. => none
  | .containing _ => none

/-- Two indexes, or failures to build one, that no question tells apart. -/
def SameAnswers (x y : Except Error ProviderIndex) : Prop :=
  ∀ (α : Type) (q : Question α) (p : ProviderQuery α),
    q.provider? = some p → p.answer x = p.answer y

theorem SameAnswers.refl (x : Except Error ProviderIndex) : SameAnswers x x := fun _ _ _ _ => rfl

theorem SameAnswers.symm {x y : Except Error ProviderIndex} (h : SameAnswers x y) :
    SameAnswers y x := fun α q p hp => (h α q p hp).symm

theorem SameAnswers.trans {x y z : Except Error ProviderIndex} (h : SameAnswers x y)
    (h' : SameAnswers y z) : SameAnswers x z := fun α q p hp => (h α q p hp).trans (h' α q p hp)

/-! ## Steady catalogues -/

namespace Catalog

/-- Nothing changed since `c₀` but what is remembered, and what indexes know is right. -/
structure Kept (c₀ c : Catalog) : Prop extends Framed c₀ c where
  sound : ∀ (number : Nat) (r : EbuildRepository) (memo : EbuildMemo),
    c.repositories[number]? = some (.ebuild r memo) → r.index.Sound c₀.files memo.index

/-- Besides, the same profiles are active, and an index of virtuals that repository `k` remembers is
up to date. -/
structure Steady (k : Nat) (c₀ c : Catalog) : Prop extends Kept c₀ c where
  active : c.repositories.map (Repository.active? c₀.files) =
    c₀.repositories.map (Repository.active? c₀.files)
  upToDate : ∀ x, c.repositories[k]? = some (.virtuals (some x)) →
    SameAnswers (.ok x) c₀.builtIndex

variable {k number : Nat} {c₀ c : Catalog}

theorem Kept.worked (h : Kept c₀ c) {r r' : Repository} (hr : c.repositories[number]? = some r)
    (hinvalidated : r'.invalidated = r.invalidated)
    (hsound : ∀ (s : EbuildRepository) (memo : EbuildMemo), r' = .ebuild s memo →
      s.index.Sound c₀.files memo.index)
    (warnings : List Warning) : Kept c₀ (CatalogM.worked c number r' warnings) where
  toFramed := h.toFramed.worked hr hinvalidated warnings
  sound m s memo hs := by
    rw [getElem?_worked hr] at hs
    by_cases hm : number = m
    · rw [if_pos hm] at hs
      exact hsound s memo (Option.some_inj.1 hs)
    · rw [if_neg hm] at hs
      exact h.sound m s memo hs

namespace Steady

/-- A source repository is the same, with the same profile active, and its memo is current. -/
theorem current (h : Steady k c₀ c) {r : EbuildRepository} {memo₀ : EbuildMemo}
    (h₀ : c₀.repositories[number]? = some (.ebuild r memo₀)) :
    ∃ memo, c.repositories[number]? = some (.ebuild r memo) ∧
      r.Current c₀.files (r.profiles.activeIn c₀.files memo₀.profiles) memo := by
  obtain ⟨memo, hr⟩ := h.toKept.ebuild h₀
  have hactive : c.repositories[number]?.map (Repository.active? c₀.files) =
      c₀.repositories[number]?.map (Repository.active? c₀.files) := by
    rw [← List.getElem?_map, h.active, List.getElem?_map]
  rw [h₀, hr, Option.map_some, Option.map_some, Option.some_inj] at hactive
  exact ⟨memo, hr, h.sound number r memo hr, Option.some_inj.1 hactive⟩

theorem worked (h : Steady k c₀ c) {r r' : Repository} (hr : c.repositories[number]? = some r)
    (hinvalidated : r'.invalidated = r.invalidated)
    (hactive : r'.active? c₀.files = r.active? c₀.files)
    (hsound : ∀ (s : EbuildRepository) (memo : EbuildMemo), r' = .ebuild s memo →
      s.index.Sound c₀.files memo.index)
    (hupToDate : ∀ x, number = k → r' = .virtuals (some x) → SameAnswers (.ok x) c₀.builtIndex)
    (warnings : List Warning) : Steady k c₀ (CatalogM.worked c number r' warnings) where
  toKept := h.toKept.worked hr hinvalidated hsound warnings
  active := (map_worked hr hactive warnings).trans h.active
  upToDate x hx := by
    rw [getElem?_worked hr] at hx
    by_cases hk : number = k
    · rw [if_pos hk] at hx
      exact hupToDate x hk (Option.some_inj.1 hx)
    · rw [if_neg hk] at hx
      exact h.upToDate x hx

/-- Work on a repository that is none of sources. -/
theorem worked_other (h : Steady k c₀ c) {r r' : Repository}
    (hr : c.repositories[number]? = some r) (hinvalidated : r'.invalidated = r.invalidated)
    (hother : r'.kind ≠ .ebuild)
    (hupToDate : ∀ x, number = k → r' = .virtuals (some x) → SameAnswers (.ok x) c₀.builtIndex)
    (warnings : List Warning) : Steady k c₀ (CatalogM.worked c number r' warnings) := by
  have hkind : r.kind = r'.kind := by
    rw [← Repository.kind_invalidated, ← hinvalidated, Repository.kind_invalidated]
  have hnone := Repository.active?_eq_none (t := c₀.files) hother
  have hnone' := Repository.active?_eq_none (t := c₀.files) (hkind ▸ hother)
  refine h.worked hr hinvalidated (hnone.trans hnone'.symm) (fun s memo hs => ?_) hupToDate warnings
  exact absurd (congrArg Repository.kind hs) hother

/-- A scan that leaves the memo of a source repository current. -/
theorem scanned (h : Steady k c₀ c) {r : EbuildRepository} {memo memo' : EbuildMemo}
    {active : Except Error Profile} (hr : c.repositories[number]? = some (.ebuild r memo))
    (hmemo : r.Current c₀.files active memo) (hmemo' : r.Current c₀.files active memo')
    (warnings : List Warning) :
    Steady k c₀ (CatalogM.worked c number (.ebuild r memo') warnings) := by
  refine h.worked hr ?_ ?_ ?_ ?_ warnings
  · rfl
  · exact congrArg some (hmemo'.profile.trans hmemo.profile.symm)
  · rintro s memo'' hs
    cases hs
    exact hmemo'.index
  · rintro x - hx
    cases hx

/-- The memo of a source repository is current for the profile that is active in it. -/
theorem current_self (h : Steady k c₀ c) {r : EbuildRepository} {memo : EbuildMemo}
    (hr : c.repositories[number]? = some (.ebuild r memo)) :
    r.Current c₀.files (r.profiles.activeIn c₀.files memo.profiles) memo :=
  ⟨h.sound number r memo hr, rfl⟩

theorem warned (h : Steady k c₀ c) (warnings : List Warning) :
    Steady k c₀ { c with warnings := warnings } :=
  ⟨⟨⟨h.files, h.registry, h.repositories⟩, h.sound⟩, h.active, h.upToDate⟩

end Steady

end Catalog

namespace CatalogM

open Catalog (Steady)

variable {k : Nat} {c₀ : Catalog} {α : Type}

/-! ## Working on one repository -/

/-- What is found in a source repository, whatever else was done. -/
theorem onEbuild?_yields {g : Registered} {s : Source} (h : c₀.source? g = some s)
    (work : EbuildRepository → Scan EbuildMemo α) {result : Except Error α}
    (hwork : Scan.Yields (s.repository.Current c₀.files s.profile) (work s.repository) c₀.files
      result) :
    Yields (Steady k c₀) (onEbuild? g.number work) (result.map some) := by
  intro c hc
  unfold Catalog.source? at h
  split at h
  · next r memo₀ h₀ =>
    obtain rfl := Option.some_inj.1 h
    obtain ⟨memo, hr, hcurrent⟩ := hc.current h₀
    obtain ⟨hresult, hcurrent'⟩ := hwork ⟨memo, c.warnings⟩ hcurrent
    rw [onEbuild?_on_of_eq hr, hc.files]
    exact ⟨congrArg (Except.map some) hresult, hc.scanned hr hcurrent hcurrent' _⟩
  · cases h

theorem onEbuild?_yields_none {g : Registered} (h : c₀.source? g = none)
    (work : EbuildRepository → Scan EbuildMemo α) :
    Yields (Steady k c₀) (onEbuild? g.number work) (.ok none) := by
  intro c hc
  have hnone : ∀ r memo, c.repositories[g.number]? ≠ some (.ebuild r memo) := by
    refine hc.toKept.not_ebuild fun r memo h₀ => ?_
    unfold Catalog.source? at h
    rw [h₀] at h
    cases h
  rw [onEbuild?_on_of_ne hnone]
  exact ⟨rfl, hc⟩

/-! ## Collecting what is declared -/

theorem needRegistry_yields (h : c₀.registry.isSome) :
    Yields (Steady k c₀) needRegistry (.ok c₀.ranked) := by
  intro c hc
  rw [needRegistry_on (hc.registry ▸ h)]
  exact ⟨congrArg Except.ok hc.toKept.ranked_eq, hc⟩

/-- What a registered repository declares, if it is a source. -/
def declarationsIn (c : Catalog) (g : Registered) :
    Except Error (Option (List (QualifiedName × Atom))) :=
  match c.source? g with
  | some s => (s.profile.map Profile.virtualList).map some
  | none => .ok none

/-- The entries of a declared virtual in a registered repository, if it is a source. -/
def providersIn (c : Catalog) (g : Registered) (virtualName provider : QualifiedName)
    (atom : Atom) : Except Error (Option (List RankedEntry)) :=
  match c.source? g with
  | some s => ((s.repository.acceptedIn c.files atom provider).map fun versions =>
      versions.map fun v => ⟨s.importance, virtualName, v, provider, s.repository.name⟩).map some
  | none => .ok none

theorem map_flatten_cons {β : Type} (list : List β) (lists : Except Error (List (List β))) :
    (do return list :: (← lists)).map List.flatten = (lists.map List.flatten).map (list ++ ·) := by
  cases lists <;> rfl

/-- Repositories that are no sources add nothing. -/
theorem flatten_mapM_source {c : Catalog} {β : Type} {f : Registered → Except Error (List β)}
    {f' : Source → Except Error (List β)} (hsource : ∀ g s, c.source? g = some s → f g = f' s)
    (hother : ∀ g, c.source? g = none → f g = .ok []) (gs : List Registered) :
    (gs.mapM f).map List.flatten = ((gs.filterMap c.source?).mapM f').map List.flatten := by
  induction gs with
  | nil => rfl
  | cons g gs ih =>
    rw [List.mapM_cons, List.filterMap_cons]
    cases hs : c.source? g with
    | none =>
      rw [hother g hs]
      refine (map_flatten_cons [] _).trans ?_
      rw [ih]
      cases (gs.filterMap c.source?).mapM f' <;> rfl
    | some s =>
      dsimp only
      rw [List.mapM_cons, hsource g s hs]
      cases f' s with
      | error e => rfl
      | ok list =>
        refine (map_flatten_cons list _).trans ?_
        rw [ih]
        exact (map_flatten_cons list _).symm

theorem collectedOf_eq (c : Catalog) (declaration : QualifiedName × Atom) :
    collectedOf c.ranked (providersIn c) declaration =
      match declaration.2.qualifiedName with
      | .ok provider =>
        PackageCatalog.entriesOf c.files c.sources declaration.1 provider declaration.2
      | .error _ => .ok [] := by
  unfold collectedOf
  cases declaration.2.qualifiedName with
  | error e => rfl
  | ok provider =>
    refine flatten_mapM_source (fun g s hs => ?_) (fun g hs => ?_) c.ranked
    · unfold providersIn
      rw [hs]
      dsimp only
      cases s.repository.acceptedIn c.files declaration.2 provider <;> rfl
    · unfold providersIn
      rw [hs]
      rfl

/-- What is declared is what is collected from the sources. -/
theorem collected_eq_declared (c : Catalog) :
    collected c.ranked (declarationsIn c) (providersIn c) = c.declared := by
  refine flatten_mapM_source (fun g s hs => ?_) (fun g hs => ?_) c.ranked
  · unfold collectedBy declarationsIn declaredIn
    rw [hs, funext (collectedOf_eq c)]
    dsimp only
    cases s.profile <;> rfl
  · unfold collectedBy declarationsIn
    rw [hs]
    rfl

theorem rankedVersions_yields {r : EbuildRepository} {t : FileTree} {active : Except Error Profile}
    (importance : Int) (virtualName provider : QualifiedName) (atom : Atom) :
    Scan.Yields (r.Current t active)
      (EbuildRepository.rankedVersions importance virtualName provider atom r) t
      ((r.acceptedIn t atom provider).map fun versions => versions.map fun v =>
        ⟨importance, virtualName, v, provider, r.name⟩) := by
  unfold EbuildRepository.rankedVersions
  rw [bind_pure_comp]
  exact (EbuildRepository.acceptedVersions_yields atom provider).map _

theorem declaredEntries_yields (h : c₀.registry.isSome) :
    Yields (Steady k c₀) declaredEntries c₀.declared := by
  rw [← collected_eq_declared]
  refine declaredEntries_yields_collected (needRegistry_yields h) (fun c ws hc => hc.warned ws)
    (fun g => ?_) fun g virtualName provider atom => ?_
  · unfold declarationsIn
    cases hs : c₀.source? g with
    | some s => exact onEbuild?_yields hs _ EbuildRepository.virtualPackages_yields
    | none => exact onEbuild?_yields_none hs _
  · unfold providersIn
    cases hs : c₀.source? g with
    | some s =>
      dsimp only
      rw [Catalog.importance_of_source? hs]
      exact onEbuild?_yields hs _ (rankedVersions_yields g.importance virtualName provider atom)
    | none => exact onEbuild?_yields_none hs _

end CatalogM

end PackageCatalog
