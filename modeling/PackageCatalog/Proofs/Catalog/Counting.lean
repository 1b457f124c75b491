import Mathlib.Data.List.Dedup
import Mathlib.Data.List.Pairwise
import PackageCatalog.Proofs.Catalog.Providing
import PackageCatalog.Proofs.Index.Likeness

/-!
# Providers that are counted once

An index of virtuals keeps every entry that is collected for it.  So a provider is counted once if
and only if it is collected once, and whether it is depends on where the entries come from
(`Reached.counts_once_iff`):

    declared virtuals:   no provider is declared by two repositories              (nodup_gathered)
    installed virtuals:  no database lists an entry twice                         (nodup_provided)

A database without a provides cache lists an entry twice if and only if some installed package names
a virtual twice (`nodup_found_iff`).  Nothing else doubles an entry: a profile declares each virtual
once, a repository has each version once, and no two registered repositories share a name.
-/

namespace PackageCatalog

attribute [ext] VirtualEntry

open CatalogM (onInstalled? virtualsMemo)

/-! ## Indexes that count once -/

/-- The index holds no entry twice, its size is the number of its different entries, and for each
version of a virtual it lists each provider of each repository once. -/
structure ProviderIndex.CountsOnce (x : ProviderIndex) : Prop where
  entries : x.entries.toList.Nodup
  size : x.size = x.entries.toList.dedup.length
  ofVersion : ∀ n v, ((x.ofVersion n v).map fun e => (e.provider, e.repository)).Nodup

/-- An index counts once what it is given once. -/
theorem ProviderIndex.countsOnce_ofRanked {list : List RankedEntry} :
    (ofRanked list).CountsOnce ↔ (list.map RankedEntry.entry).Nodup := by
  have hnodup : (ofRanked list).entries.toList.Nodup ↔ (list.map RankedEntry.entry).Nodup := by
    rw [toList_ofRanked]
    exact ((perm_sortedEntries list).map RankedEntry.entry).nodup_iff
  refine ⟨fun h => hnodup.1 h.entries, fun h => ⟨hnodup.2 h, ?_, fun n v => ?_⟩⟩
  · rw [List.Nodup.dedup (hnodup.2 h), size, Array.length_toList]
  · rw [ofVersion_ofRanked]
    have hsorted := hnodup.2 h
    rw [toList_ofRanked] at hsorted
    have hversion : (((sortedEntries list).filter fun r =>
        r.entry.virtualName = n ∧ r.entry.version = v).map RankedEntry.entry).Nodup :=
      hsorted.sublist (List.filter_sublist.map _)
    refine hversion.map_on fun e he e' he' heq => ?_
    obtain ⟨a, ha, rfl⟩ := List.mem_map.1 he
    obtain ⟨a', ha', rfl⟩ := List.mem_map.1 he'
    obtain ⟨hname, hv⟩ := of_decide_eq_true (List.mem_filter.1 ha).2
    obtain ⟨hname', hv'⟩ := of_decide_eq_true (List.mem_filter.1 ha').2
    obtain ⟨hprovider, hrepository⟩ := Prod.mk.inj heq
    exact VirtualEntry.ext (hname.trans hname'.symm) (hv.trans hv'.symm) hprovider hrepository

namespace Catalog

variable {c : Catalog} {k : Nat}

/-! ## Declared virtuals -/

theorem WellFormed.pairwise_names (hc : c.WellFormed) :
    c.ranked.Pairwise fun g g' => c.nameOf g.number ≠ c.nameOf g'.number := by
  rw [← List.pairwise_map (R := (· ≠ ·)) (f := fun g : Registered => c.nameOf g.number)]
  exact (c.perm_ranked.map _).nodup_iff.2 hc.names

theorem WellFormed.nodup_ranked (hc : c.WellFormed) : c.ranked.Nodup :=
  hc.pairwise_names.imp fun hne heq => hne (congrArg (c.nameOf ·.number) heq)

/-- What repositories declare and have is kept apart by names and versions. -/
theorem WellFormed.separate (hc : c.WellFormed) :
    Separate c.ranked c.declarationsOf c.entriesFrom where
  declared g _ declarations hdeclarations := by
    unfold declarationsOf at hdeclarations
    rcases CatalogM.onEbuild?_on_cases g.number (·.virtualPackages) c with ⟨r, memo, hr, hon⟩ | hon
    · rw [hon] at hdeclarations
      obtain ⟨found, hfound, hsome⟩ := Scan.map_eq_ok_iff.1 hdeclarations
      cases hsome
      have hmemo : r.WellFormed memo := hc.getElem? hr
      rw [(EbuildRepository.virtualPackages_yields_start ⟨memo, c.warnings⟩ hmemo.saysAs_self).1]
        at hfound
      obtain ⟨p, hp, rfl⟩ := Scan.map_eq_ok_iff.1 hfound
      exact Profile.nodup_virtualList (ProfileChain.activeIn_unambiguous hmemo.profiles hp)
    · rw [hon] at hdeclarations
      cases hdeclarations
  named g hg n provider atom bs hbs b hb :=
    ((mem_entriesFrom hc (mem_ranked.1 hg)).1 ⟨bs, hbs, hb⟩).2.1
  once g _ n provider atom bs hbs := by
    by_cases hr : ∃ r memo, c.repositories[g.number]? = some (.ebuild r memo)
    · obtain ⟨r, memo, hr⟩ := hr
      have hmemo : r.WellFormed memo := hc.getElem? hr
      rw [entriesFrom_eq hc hr] at hbs
      obtain ⟨found, hfound, hsome⟩ := Scan.map_eq_ok_iff.1 hbs
      cases hsome
      obtain ⟨vs, hvs, rfl⟩ := Scan.map_eq_ok_iff.1 hfound
      obtain ⟨all, hall, rfl⟩ := Scan.map_eq_ok_iff.1 hvs
      have hnodup := (Index.sorted_versionsFrom hmemo.index.toOrderly hall).nodup
      rw [List.map_map]
      refine (hnodup.sublist List.filter_sublist).map fun v v' heq => ?_
      exact congrArg VirtualEntry.version heq
    · rw [entriesFrom_of_ne hr] at hbs
      cases hbs
  apart := by
    refine hc.pairwise_names.imp_of_mem fun {g g'} hg hg' hne => ?_
    intro n provider atom bs bs' hbs hbs' b hb b' hb' heq
    obtain ⟨-, -, -, haccepts⟩ := (mem_entriesFrom hc (mem_ranked.1 hg)).1 ⟨bs, hbs, hb⟩
    obtain ⟨-, -, -, haccepts'⟩ := (mem_entriesFrom hc (mem_ranked.1 hg')).1 ⟨bs', hbs', hb'⟩
    exact hne (haccepts.repository.symm.trans (heq ▸ haccepts'.repository))

/-- No provider is declared by two repositories. -/
def DeclaredOnce (c : Catalog) : Prop :=
  ∀ g g' h h' e, c.Provides g h e → c.Provides g' h' e → g = g'

theorem nodup_gathered (hc : c.WellFormed) {list : List RankedEntry}
    (hlist : c.gathered = .ok list) : (list.map RankedEntry.entry).Nodup ↔ c.DeclaredOnce := by
  rw [hc.separate.nodup_collected hlist]
  constructor
  · intro hapart g g' h h' e hprovides hprovides'
    by_contra hne
    have hsymm : Std.Symm
        (Apart (collectedBy c.ranked c.declarationsOf c.entriesFrom) RankedEntry.entry) :=
      ⟨fun _ _ hab bs bs' hbs hbs' b hb b' hb' heq => hab bs' bs hbs' hbs b' hb' b hb heq.symm⟩
    obtain ⟨bs, hbs⟩ := gatheredBy_of_gathered hlist hprovides.declares
    obtain ⟨bs', hbs'⟩ := gatheredBy_of_gathered hlist hprovides'.declares
    have hdiffer := List.Pairwise.forall hapart (mem_ranked.2 hprovides.declares)
      (mem_ranked.2 hprovides'.declares) hne
    refine hdiffer bs bs' hbs hbs' ⟨h.importance, e⟩ ?_ ⟨h'.importance, e⟩ ?_ rfl
    · exact (mem_gatheredBy hc hprovides.declares hbs).2 ⟨h, hprovides, rfl⟩
    · exact (mem_gatheredBy hc hprovides'.declares hbs').2 ⟨h', hprovides', rfl⟩
  · intro honce
    refine hc.nodup_ranked.pairwise_of_forall_ne fun g hg g' hg' hne => ?_
    intro bs bs' hbs hbs' b hb b' hb' heq
    obtain ⟨h, hprovides, -⟩ := (mem_gatheredBy hc (mem_ranked.1 hg) hbs).1 hb
    obtain ⟨h', hprovides', -⟩ := (mem_gatheredBy hc (mem_ranked.1 hg') hbs').1 hb'
    exact hne (honce g g' h h' _ hprovides (heq ▸ hprovides'))

end Catalog

/-! ## What databases list -/

namespace InstalledRepository

open Scan (Agrees IsReader)

variable {r : InstalledRepository} {t : FileTree}

/-- Two memos that what packages provide is told alike from. -/
structure TellAlike (memo memo' : InstalledMemo) : Prop where
  index : Index.KnowsAlike memo.index memo'.index
  provides : memo.provides = memo'.provides

theorem isReader_loadProvides {τ : Type} {view : InstalledMemo → τ} :
    IsReader view r.loadProvides t := by
  have hwarn {α : Type} (w : Warning) (a : α) :
      IsReader view (do Scan.warn w; return a : Scan InstalledMemo α) t :=
    (Scan.isReader_warn w).bind fun _ => Scan.isReader_pure a
  have hread : IsReader view (read : Scan InstalledMemo FileTree) t :=
    ⟨.ok t, fun _ _ hj => ⟨rfl, hj⟩⟩
  have hcontent (content : String) : IsReader view (r.readProvides content) t := by
    unfold readProvides
    dsimp only
    split
    · exact hwarn _ none
    · refine (IsReader.foldlM _ (fun entries line => ?_) []).bind fun _ => Scan.isReader_pure _
      cases parseProvision line with
      | ok p => exact Scan.isReader_pure _
      | error e => exact hwarn _ entries
  unfold loadProvides
  split
  · exact Scan.isReader_pure none
  · refine hread.bind fun t' => ?_
    cases t'.readText r.providesCache with
    | ok content => exact hcontent content
    | error problem =>
      cases problem with
      | missing => exact Scan.isReader_pure none
      | _ => exact hwarn _ none

theorem scanProvides_agrees : Agrees TellAlike r.scanProvides t := by
  have hindex {α : Type} (q : Index.Query α) :
      Agrees TellAlike (InstalledMemo.onIndex (r.index.reply q)) t :=
    (Index.reply_agrees q).zoom (fun _ _ h => h.index) fun _ _ _ _ h hindex => ⟨hindex, h.provides⟩
  refine (hindex .allPackages).bind fun ns => Agrees.bind ?_ fun _ => Scan.agrees_pure _
  refine .mapM ns fun n => (hindex (.ask (.versions n))).bind fun vs => .mapM vs fun v => ?_
  refine (hindex (.ask (.metadata n v))).attempt.bind fun outcome => ?_
  cases outcome with
  | ok m => exact Scan.agrees_pure _
  | error e => exact (Scan.agrees_warn _).bind fun _ => Scan.agrees_pure none

/-- What was reported before does not change what a database lists. -/
theorem provided_agrees : Agrees TellAlike r.provided t := by
  have hremember (entries : List VirtualEntry) : Agrees TellAlike (do
      Scan.modifyMemo fun memo => { memo with provides := some entries }
      return entries : Scan InstalledMemo (List VirtualEntry)) t :=
    (Scan.agrees_modifyMemo fun _ _ h => ⟨h.index, rfl⟩).bind fun _ => Scan.agrees_pure entries
  refine Scan.agrees_memo_bind (fun m m' h => by rw [h.provides]) fun m => ?_
  split
  · exact Scan.agrees_pure _
  · refine isReader_loadProvides.agrees.bind fun loaded => ?_
    cases loaded with
    | some entries => exact hremember entries
    | none => exact scanProvides_agrees.bind fun provisions => hremember _

/-- Provisions of different package versions have no entry in common. -/
theorem nodup_entriesOf {ps : List Provision} (hps : ps.Pairwise Provision.Before) :
    (r.entriesOf ps).Nodup ↔ ∀ p ∈ ps, p.virtuals.Nodup := by
  unfold entriesOf
  rw [List.nodup_flatMap]
  refine (and_iff_left ?_).trans (forall₂_congr fun p _ => ?_)
  · refine hps.imp fun {p q} hbefore e he he' => ?_
    obtain ⟨_, -, rfl⟩ := List.mem_map.1 he
    obtain ⟨_, -, heq⟩ := List.mem_map.1 he'
    obtain ⟨-, hversion, hprovider, -⟩ := VirtualEntry.mk.inj heq
    rcases hbefore with h | ⟨-, h⟩
    · rw [hprovider, Std.ReflOrd.compare_self] at h
      cases h
    · rw [hversion, Std.ReflOrd.compare_self] at h
      cases h
  · exact List.nodup_map_iff fun n n' heq => congrArg VirtualEntry.virtualName heq

/-- Without a provides cache, a database lists something twice if and only if it recalls a package
version that names a virtual twice. -/
theorem nodup_found_iff (hinstalled : r.index.layout = .installed) {w : Workspace InstalledMemo}
    (hmemo : w.memo.provides = none) (horderly : Index.Orderly r.index w.memo.index)
    {ns : List QualifiedName} {j : Journal IndexMemo}
    (hlist : r.index.allPackages.on w.files ⟨w.memo.index, w.warnings⟩ = (.ok ns, j)) :
    ∃ entries, r.Finds w entries ∧
      (entries.Nodup ↔ ∀ p, r.Recalls w.files w.memo.index p → p.virtuals.Nodup) := by
  have hlearned := (Index.surveyed_of_list hlist).looked.learned
  refine ⟨_, finds_of_list hinstalled hmemo hlist, ?_⟩
  rw [nodup_entriesOf (ordered_provisionsFrom (hlearned.orderly horderly))]
  exact forall_congr' fun p =>
    imp_congr_left (mem_provisionsFrom_iff hinstalled hlist horderly.coherent)

end InstalledRepository

namespace Catalog

variable {c : Catalog} {k : Nat}

/-! ## Installed virtuals -/

/-- What a repository lists as provided, asked of the catalogue as it is. -/
def listedBy (c : Catalog) (g : Registered) : Except Error (Option (List VirtualEntry)) :=
  ((onInstalled? g.number (·.provided)).on c).1

/-- No database lists an entry twice. -/
def ListedOnce (c : Catalog) : Prop :=
  ∀ g ∈ c.registered, ∀ entries, c.listedBy g = .ok (some entries) → entries.Nodup

/-- The repository of a number, and all files, are the same in both. -/
def AlikeAt (number : Nat) (c c' : Catalog) : Prop :=
  c'.files = c.files ∧ c'.repositories[number]? = c.repositories[number]?

theorem listedBy_congr {c' : Catalog} {g : Registered} (h : AlikeAt g.number c c') :
    c'.listedBy g = c.listedBy g := by
  obtain ⟨hfiles, hrepository⟩ := h
  unfold listedBy
  by_cases hr : ∃ r memo, c.repositories[g.number]? = some (.installed r memo)
  · obtain ⟨r, memo, hr⟩ := hr
    rw [CatalogM.onInstalled?_on_of_eq hr, CatalogM.onInstalled?_on_of_eq (hrepository.trans hr),
      hfiles]
    exact congrArg (Except.map some) (InstalledRepository.provided_agrees ⟨memo, c'.warnings⟩
      ⟨memo, c.warnings⟩ ⟨rfl, rfl⟩).1
  · rw [CatalogM.onInstalled?_on_of_ne fun r memo h => hr ⟨r, memo, h⟩,
      CatalogM.onInstalled?_on_of_ne fun r memo h => hr ⟨r, memo, hrepository.symm.trans h⟩]

/-- To ask one repository leaves the others alone. -/
theorem alikeAt_listed {g : Registered} {number : Nat} (hne : g.number ≠ number) :
    AlikeAt number c ((onInstalled? g.number (·.provided)).on c).2 := by
  by_cases hr : ∃ r memo, c.repositories[g.number]? = some (.installed r memo)
  · obtain ⟨r, memo, hr⟩ := hr
    rw [CatalogM.onInstalled?_on_of_eq hr]
    exact ⟨rfl, (getElem?_worked hr _ number).trans (if_neg hne)⟩
  · rw [CatalogM.onInstalled?_on_of_ne fun r memo h => hr ⟨r, memo, h⟩]
    exact ⟨rfl, rfl⟩

theorem AlikeAt.trans {number : Nat} {c' c'' : Catalog} (h : AlikeAt number c c')
    (h' : AlikeAt number c' c'') : AlikeAt number c c'' :=
  ⟨h'.1.trans h.1, h'.2.trans h.2⟩

/-- What a repository lists, with its importance. -/
def rankedList (importance : Int) (listed : Option (List VirtualEntry)) : List RankedEntry :=
  (listed.getD []).map fun e => ⟨importance, e⟩

/-- If each repository is asked once, they list what they list at the start. -/
theorem mapM_listed_on {gs : List Registered} (hgs : gs.Pairwise fun g g' => g.number ≠ g'.number)
    (c' : Catalog) (h : ∀ g ∈ gs, AlikeAt g.number c c') :
    ((gs.mapM fun g => rankedList g.importance <$> onInstalled? g.number (·.provided)).on c').1 =
      gs.mapM fun g => (c.listedBy g).map (rankedList g.importance) := by
  induction gs generalizing c' with
  | nil => rfl
  | cons g gs ih =>
    obtain ⟨hne, hgs⟩ := List.pairwise_cons.1 hgs
    obtain ⟨hg, hothers⟩ := List.forall_mem_cons.1 h
    have hfirst : (rankedList g.importance <$> onInstalled? g.number (·.provided)).on c' =
        ((c.listedBy g).map (rankedList g.importance),
          ((onInstalled? g.number (·.provided)).on c').2) := by
      rw [CatalogM.on_map, ← listedBy_congr hg]
      rfl
    rw [List.mapM_cons, List.mapM_cons]
    cases hlist : (c.listedBy g).map (rankedList g.importance) with
    | error e =>
      rw [hlist] at hfirst
      rw [CatalogM.on_bind_of_error hfirst]
      rfl
    | ok list =>
      rw [hlist] at hfirst
      rw [CatalogM.on_bind_of_ok hfirst, bind_pure_comp, CatalogM.on_map,
        ih hgs _ fun g' hg' => (hothers g' hg').trans (alikeAt_listed (hne g' hg'))]
      rfl

/-- What is provided is what all repositories list. -/
theorem providedEntries_found (hc : c.WellFormed) (halive : c.registry.isSome) :
    (CatalogM.providedEntries.on c).1 =
      (c.ranked.mapM fun g => (c.listedBy g).map (rankedList g.importance)).map List.flatten := by
  have hnumbers : c.ranked.Pairwise fun g g' => g.number ≠ g'.number :=
    hc.pairwise_names.imp fun hne heq => hne (congrArg c.nameOf heq)
  unfold CatalogM.providedEntries
  rw [CatalogM.on_bind_of_ok (CatalogM.needRegistry_on halive), bind_pure_comp, CatalogM.on_map,
    ← mapM_listed_on hnumbers c fun _ _ => ⟨rfl, rfl⟩]
  simp only [bind_pure_comp]
  rfl

/-- What a repository lists is its own. -/
theorem repository_of_listedBy (hc : c.WellFormed) {g : Registered} {entries : List VirtualEntry}
    (hentries : c.listedBy g = .ok (some entries)) :
    ∀ e ∈ entries, e.repository = c.nameOf g.number := by
  unfold listedBy at hentries
  by_cases hr : ∃ r memo, c.repositories[g.number]? = some (.installed r memo)
  · obtain ⟨r, memo, hr⟩ := hr
    have hmemo : r.WellFormed memo := hc.getElem? hr
    rw [CatalogM.onInstalled?_on_of_eq hr] at hentries
    obtain ⟨found, hfound, hsome⟩ := Scan.map_eq_ok_iff.1 hentries
    cases hsome
    have hname : c.nameOf g.number = r.name.text := by
      unfold nameOf
      rw [hr]
      rfl
    rw [hname]
    exact (InstalledRepository.provided_ensures (fun q _ => Index.reply_grounded q)
      ⟨memo, c.warnings⟩ hmemo.toRemembers).2 entries hfound
  · rw [CatalogM.onInstalled?_on_of_ne fun r memo h => hr ⟨r, memo, h⟩] at hentries
    cases hentries

theorem nodup_provided (hc : c.WellFormed) {list : List RankedEntry}
    (hlist : (c.ranked.mapM fun g => (c.listedBy g).map (rankedList g.importance)).map
      List.flatten = .ok list) :
    (list.map RankedEntry.entry).Nodup ↔ c.ListedOnce := by
  have hentries {importance : Int} (found : Option (List VirtualEntry)) :
      (rankedList importance found).map RankedEntry.entry = found.getD [] := by
    unfold rankedList
    rw [List.map_map]
    exact List.map_id _
  have hapart : c.ranked.Pairwise
      (Apart (fun g => (c.listedBy g).map (rankedList g.importance)) RankedEntry.entry) := by
    refine hc.pairwise_names.imp fun {g g'} hne bs bs' hbs hbs' b hb b' hb' heq => hne ?_
    have hrepository {g : Registered} {bs : List RankedEntry}
        (hbs : (c.listedBy g).map (rankedList g.importance) = .ok bs) {b : RankedEntry}
        (hb : b ∈ bs) : b.entry.repository = c.nameOf g.number := by
      obtain ⟨found, hfound, rfl⟩ := Scan.map_eq_ok_iff.1 hbs
      cases found with
      | none => cases hb
      | some entries =>
        obtain ⟨e, he, rfl⟩ := List.mem_map.1 hb
        exact repository_of_listedBy hc hfound e he
    rw [← hrepository hbs hb, heq, hrepository hbs' hb']
  rw [nodup_flatten_mapM hlist RankedEntry.entry, and_iff_left hapart]
  constructor
  · intro honce g hg entries hlisted
    have hnodup := honce g (mem_ranked.2 hg) _ (Scan.map_eq_ok_iff.2 ⟨_, hlisted, rfl⟩)
    rwa [hentries] at hnodup
  · intro honce g hg bs hbs
    obtain ⟨found, hfound, rfl⟩ := Scan.map_eq_ok_iff.1 hbs
    rw [hentries]
    cases found with
    | none => exact List.nodup_nil
    | some entries => exact honce g (mem_ranked.1 hg) entries hfound

/-! ## Every repository of virtuals -/

/-- What is collected for a repository of virtuals is collected once. -/
def CollectedOnce (c : Catalog) : Repository → Prop
  | .virtuals _ => c.DeclaredOnce
  | .installedVirtuals .. => c.ListedOnce
  | _ => True

theorem alive_of_ok {α : Type} {f : List Registered → CatalogM α} {a : α}
    (h : ((CatalogM.needRegistry >>= f).on c).1 = .ok a) : c.registry.isSome := by
  cases hregistry : c.registry with
  | some list => rfl
  | none =>
    rw [CatalogM.on_bind_of_error (CatalogM.needRegistry_on_of_none hregistry)] at h
    cases h

theorem index_found {r : Repository} (hr : c.repositories[k]? = some r)
    (hnone : r.index? = some none) : ((virtualsMemo k).index.on c).1 =
      ((CatalogM.collect k).on c).1.map ProviderIndex.ofRanked := by
  cases hcollect : (CatalogM.collect k).on c with
  | mk result c' =>
    cases result with
    | error e =>
      rw [CatalogM.index_on hr hnone]
      dsimp only
      rw [CatalogM.on_bind_of_error hcollect]
      rfl
    | ok list =>
      rw [index_on_of_collect hr hnone hcollect]
      rfl

/-- An index that is built counts every provider once if and only if each is collected once. -/
theorem Reached.counts_once_iff (hreached : Reached c) {r : Repository}
    (hr : c.repositories[k]? = some r) (hnone : r.index? = some none) {x : ProviderIndex}
    (hx : ((virtualsMemo k).index.on c).1 = .ok x) : x.CountsOnce ↔ c.CollectedOnce r := by
  have hc := hreached.wellFormed
  rw [index_found hr hnone] at hx
  obtain ⟨list, hlist, rfl⟩ := Scan.map_eq_ok_iff.1 hx
  rw [ProviderIndex.countsOnce_ofRanked]
  unfold CatalogM.collect at hlist
  rw [CatalogM.on_bind_get, hr] at hlist
  cases r with
  | virtuals memo =>
    have hgathered := (declaredEntries_saysAs hc (alive_of_ok hlist) c (.refl hc)).1
    exact nodup_gathered hc (hgathered.symm.trans hlist)
  | installedVirtuals root memo =>
    have hprovided := providedEntries_found hc (alive_of_ok hlist)
    exact nodup_provided hc (hprovided.symm.trans hlist)
  | ebuild => cases hnone
  | installed => cases hnone

theorem counts_once_iff_declaringCatalog : Reached declaringCatalog ∧
    declaringCatalog.repositories[1]? = some (.virtuals none) ∧
    ∃ x, ((virtualsMemo 1).index.on declaringCatalog).1 = .ok x ∧
      (x.CountsOnce ↔ declaringCatalog.DeclaredOnce) := by
  have hk : declaringCatalog.repositories[1]? = some (.virtuals none) := rfl
  have hbuilt : ((virtualsMemo 1).index.on declaringCatalog).1.toOption.isSome := by decide +kernel
  cases hx : ((virtualsMemo 1).index.on declaringCatalog).1 with
  | ok x => exact ⟨reached_declaringCatalog, hk, x, rfl,
      Reached.counts_once_iff reached_declaringCatalog hk rfl hx⟩
  | error e =>
    rw [hx] at hbuilt
    cases hbuilt

/-! ### Providers that are counted twice -/

/-- Two repositories have one profile in common, which declares a virtual. -/
def sharingTree : FileTree :=
  ⟨⟨[(["a"], .directory), (["a", "profiles"], .directory),
    (["a", "profiles", "categories"], .text "cat\n"),
    (["a", "cat"], .directory), (["a", "cat", "p"], .directory),
    (["a", "cat", "p", "p-1.ebuild"], .text ""),
    (["b"], .directory), (["b", "profiles"], .directory),
    (["b", "profiles", "categories"], .text "cat\n"),
    (["base"], .directory), (["base", "virtuals"], .text "virtual/e cat/p\n")]⟩⟩

def sharingCatalog : Catalog :=
  (((({ files := sharingTree } : Catalog).act
    (.made .ebuild ⟨[("location", "/a"), ("name", "a"), ("profiles", "/base")]⟩)).act
    (.registered 0 0)).act
    (.made .ebuild ⟨[("location", "/b"), ("name", "b"), ("profiles", "/base")]⟩)).act
    (.registered 0 1) |>.act (.made .virtuals ⟨[]⟩)

/-- An installed package names a virtual twice. -/
def repeatingTree : FileTree :=
  ⟨⟨[(["db"], .directory), (["db", "cat"], .directory), (["db", "cat", "a-1"], .directory),
    (["db", "cat", "a-1", "DESCRIPTION"], .text "some package\n"),
    (["db", "cat", "a-1", "SLOT"], .text "0\n"),
    (["db", "cat", "a-1", "PROVIDE"], .text "virtual/x virtual/x\n")]⟩⟩

def repeatingCatalog : Catalog :=
  ((({ files := repeatingTree } : Catalog).act
    (.made .installed ⟨[("location", "/db")]⟩)).act (.registered 0 0)).act
    (.made .installedVirtuals ⟨[("root", "/")]⟩)

/-- Whether the entries are different. -/
def allDiffer (collected : Except Error (List RankedEntry)) : Option Bool :=
  (collected.map fun list => decide (list.map RankedEntry.entry).Nodup).toOption

theorem counted_of_allDiffer {r : Repository} (hr : c.repositories[k]? = some r)
    (hnone : r.index? = some none)
    (h : allDiffer ((CatalogM.collect k).on c).1 = some false) :
    ∃ x, ((virtualsMemo k).index.on c).1 = .ok x ∧ ¬ x.CountsOnce := by
  rw [index_found hr hnone]
  cases hlist : ((CatalogM.collect k).on c).1 with
  | error e =>
    rw [hlist] at h
    cases h
  | ok list =>
    rw [hlist] at h
    refine ⟨_, rfl, fun honce => ?_⟩
    exact of_decide_eq_false (Option.some_inj.1 h) (ProviderIndex.countsOnce_ofRanked.1 honce)

theorem reached_sharingCatalog : Reached sharingCatalog :=
  .acted _ (.acted _ (.acted _ (.acted _ (.acted _ (.start _)))))

theorem ranked_sharingCatalog : sharingCatalog.ranked = [⟨0, 0⟩, ⟨0, 1⟩] := by
  have hregistered : sharingCatalog.registered = [⟨0, 0⟩, ⟨0, 1⟩] := by decide +kernel
  unfold ranked
  rw [hregistered]
  exact List.mergeSort_of_pairwise (by decide)

/-- Both repositories declare the provider, and the installed package provides its virtual twice. -/
theorem counted_twice :
    (Reached sharingCatalog ∧ sharingCatalog.repositories[2]? = some (.virtuals none) ∧
      ∃ x, ((virtualsMemo 2).index.on sharingCatalog).1 = .ok x ∧ ¬ x.CountsOnce) ∧
    (Reached repeatingCatalog ∧
      repeatingCatalog.repositories[1]? = some (.installedVirtuals "/" none) ∧
      ∃ x, ((virtualsMemo 1).index.on repeatingCatalog).1 = .ok x ∧ ¬ x.CountsOnce) := by
  have hshared : sharingCatalog.repositories[2]? = some (.virtuals none) := rfl
  have hrepeated : repeatingCatalog.repositories[1]? = some (.installedVirtuals "/" none) := rfl
  refine ⟨⟨reached_sharingCatalog, hshared, counted_of_allDiffer hshared rfl ?_⟩,
    ⟨.acted _ (.acted _ (.acted _ (.start _))), hrepeated,
      counted_of_allDiffer hrepeated rfl (by decide +kernel)⟩⟩
  obtain ⟨c', hcollect, -⟩ :=
    collect_declared reached_sharingCatalog.wellFormed (by decide +kernel) hshared
  rw [hcollect]
  show allDiffer sharingCatalog.gathered = some false
  rw [gathered, ranked_sharingCatalog]
  decide +kernel

end Catalog

end PackageCatalog
