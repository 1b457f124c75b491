import Mathlib.Order.Defs.Unbundled
import PackageCatalog.Proofs.Catalog.Missing
import PackageCatalog.Proofs.Catalog.Selections

/-!
# What a registry holds

Every registration that succeeds is recorded, and every name that is taken out.  Whatever else is
done with the catalogue, its registry holds what was added and has not been taken out since, in the
order in which it was added:

    Recorded c facts → c.listing = standing facts                      (Recorded.listing_eq)

From this follows what is found by a name, how many repositories there are, and how they are ranked
(`Recorded.answers`).  A registration that fails changes nothing in the registry.
-/

namespace PackageCatalog

/-! ## Records -/

inductive RegistryFact where
  /-- A repository of this name was added. -/
  | added (name : String) (g : Registered)
  /-- The name was taken out, if it was in. -/
  | removed (name : String)
  deriving DecidableEq

namespace RegistryFact

/-- The additions whose names are not taken out later, in the order in which they were made. -/
def standing : List RegistryFact → List (String × Registered)
  | [] => []
  | .added name g :: later =>
    if .removed name ∈ later then standing later else (name, g) :: standing later
  | .removed _ :: later => standing later

/-- The repository was added under this name, which was not taken out since. -/
def Stands (facts : List RegistryFact) (name : String) (g : Registered) : Prop :=
  ∃ before later, facts = before ++ .added name g :: later ∧ .removed name ∉ later

theorem stands_cons_iff {fact : RegistryFact} {later : List RegistryFact} {name : String}
    {g : Registered} : Stands (fact :: later) name g ↔
      fact = .added name g ∧ .removed name ∉ later ∨ Stands later name g := by
  constructor
  · rintro ⟨before, later', heq, hstands⟩
    cases before with
    | nil =>
      cases heq
      exact .inl ⟨rfl, hstands⟩
    | cons first before =>
      cases heq
      exact .inr ⟨before, later', rfl, hstands⟩
  · rintro (⟨rfl, hstands⟩ | ⟨before, later', rfl, hstands⟩)
    · exact ⟨[], later, rfl, hstands⟩
    · exact ⟨fact :: before, later', rfl, hstands⟩

theorem mem_standing_iff {facts : List RegistryFact} {name : String} {g : Registered} :
    (name, g) ∈ standing facts ↔ Stands facts name g := by
  induction facts with
  | nil => simp [standing, Stands]
  | cons fact later ih =>
    rw [stands_cons_iff, ← ih]
    cases fact with
    | removed name' => simp [standing]
    | added name' g' =>
      rw [standing]
      by_cases hremoved : .removed name' ∈ later
      · rw [if_pos hremoved]
        constructor
        · exact .inr
        · rintro (⟨heq, hstands⟩ | hmem)
          · cases heq
            exact absurd hremoved hstands
          · exact hmem
      · rw [if_neg hremoved, List.mem_cons]
        constructor
        · rintro (heq | hmem)
          · cases heq
            exact .inl ⟨rfl, hremoved⟩
          · exact .inr hmem
        · rintro (⟨heq, -⟩ | hmem)
          · cases heq
            exact .inl rfl
          · exact .inr hmem

theorem standing_append_added (facts : List RegistryFact) (name : String) (g : Registered) :
    standing (facts ++ [.added name g]) = standing facts ++ [(name, g)] := by
  induction facts with
  | nil => rfl
  | cons fact later ih =>
    cases fact with
    | removed name' => exact ih
    | added name' g' =>
      have hmem : .removed name' ∈ later ++ [.added name g] ↔ .removed name' ∈ later := by simp
      rw [List.cons_append, standing, standing, ih]
      by_cases hremoved : .removed name' ∈ later
      · rw [if_pos hremoved, if_pos (hmem.2 hremoved)]
      · rw [if_neg hremoved, if_neg (mt hmem.1 hremoved), List.cons_append]

theorem standing_append_removed (facts : List RegistryFact) (name : String) :
    standing (facts ++ [.removed name]) = (standing facts).filter fun e => e.1 != name := by
  induction facts with
  | nil => rfl
  | cons fact later ih =>
    cases fact with
    | removed name' => exact ih
    | added name' g' =>
      have hmem : .removed name' ∈ later ++ [.removed name] ↔
          .removed name' ∈ later ∨ name' = name := by simp
      rw [List.cons_append, standing, standing, ih]
      by_cases hremoved : .removed name' ∈ later
      · rw [if_pos hremoved, if_pos (hmem.2 (.inl hremoved))]
      · rw [if_neg hremoved]
        by_cases hname : name' = name
        · rw [if_pos (hmem.2 (.inr hname)), List.filter_cons_of_neg (by simp [hname])]
        · rw [if_neg (by simp [hremoved, hname]), List.filter_cons_of_pos (by simp [hname])]

end RegistryFact

open RegistryFact (standing Stands)

/-! ## What leaves the registry alone -/

namespace Catalog

open CatalogM (Keeps worked)

variable {c c' c₀ : Catalog} {number : Nat}

/-- The registry is the same, and so are the names of the repositories that there were. -/
structure Retains (c₀ c : Catalog) : Prop where
  registry : c.registry = c₀.registry
  names : ∀ number < c₀.repositories.length, c.nameOf number = c₀.nameOf number

theorem Framed.retains (h : Framed c₀ c) : Retains c₀ c :=
  ⟨h.registry, fun number _ => congrFun h.nameOf_eq number⟩

theorem Retains.of_eq (h : Retains c₀ c) (hrepositories : c'.repositories = c.repositories)
    (hregistry : c'.registry = c.registry) : Retains c₀ c' := by
  refine ⟨hregistry.trans h.registry, fun number hnumber => ?_⟩
  rw [← h.names number hnumber]
  unfold nameOf
  rw [hrepositories]

theorem retains_refl (c : Catalog) : Retains c c := ⟨rfl, fun _ _ => rfl⟩

/-- Repositories that are made come after those that there were. -/
theorem retains_append (h : c.repositories <+: c'.repositories)
    (hregistry : c'.registry = c.registry) : Retains c c' := by
  refine ⟨hregistry, fun number hnumber => ?_⟩
  obtain ⟨made, hmade⟩ := h
  unfold nameOf
  rw [← hmade, List.getElem?_append_left hnumber]

theorem onEbuild?_framed {α : Type} (c₀ : Catalog) (number : Nat)
    (work : EbuildRepository → Scan EbuildMemo α) :
    Keeps (Framed c₀) (CatalogM.onEbuild? number work) := by
  intro c h
  rcases CatalogM.onEbuild?_on_cases number work c with ⟨r, memo, hr, hon⟩ | hon
  · rw [hon]
    exact h.worked (s := .ebuild r ((work r).on c.files ⟨memo, c.warnings⟩).2.memo) hr rfl _
  · rw [hon]
    exact h

theorem invalidateVirtuals_framed (c₀ : Catalog) :
    Keeps (Framed c₀) CatalogM.invalidateVirtuals := by
  intro c h
  unfold CatalogM.invalidateVirtuals
  rw [CatalogM.on_modify]
  dsimp only
  split
  · exact h.invalidate _
  · exact h

theorem next_framed (c : Catalog) (e : CatalogEvent) : Framed c (c.next e) := by
  have hrefl := Framed.refl c
  have hdrop := invalidateVirtuals_framed c
  cases e with
  | asked number q => exact (inquired_framed c).answer number q c hrefl
  | consulted number q => exact onEbuild?_framed c number _ c hrefl
  | consultedInstalled number q =>
    exact (undisturbed_framed c).installedReply? q number c hrefl
  | indexed number => exact (inquired_framed c).built number c hrefl
  | selected number position =>
    exact (onEbuild?_framed c number _).selection hdrop (· == some true) (· == some true) c hrefl
  | adopted number d =>
    exact (onEbuild?_framed c number _).selection hdrop Option.isSome id c hrefl
  | selectedByArch number arch =>
    exact (onEbuild?_framed c number _).selection hdrop Option.isSome id c hrefl
  | invalidated number => exact hrefl.invalidate number

theorem invalidateAll_framed (c : Catalog) : Framed c c.invalidateAll :=
  List.foldlRecOn c.ranked _ (Framed.refl c) fun _ h g _ => h.invalidate g.number

theorem change_retains {σ : Type} {memo : σ} {keep : σ → Repository} {work : Change σ Unit}
    (hr : c.repositories[number]? = some (keep memo))
    (hinvalidated : ∀ memo', (keep memo').invalidated = (keep memo).invalidated) :
    Retains c ((CatalogM.change number memo keep work).on c).2 := by
  have hworked := ((Framed.refl c).worked hr
    (hinvalidated (work.on ⟨c.files, memo, c.warnings⟩).2.memo) c.warnings).retains
  unfold CatalogM.change
  rw [CatalogM.on_bind_get]
  exact hworked.of_eq rfl rfl

theorem regenerate_retains (number : Nat) (c : Catalog) :
    Retains c ((CatalogM.regenerate number).on c).2 := by
  unfold CatalogM.regenerate
  rw [CatalogM.on_bind_get]
  split
  · next r memo hr => exact change_retains hr fun _ => rfl
  · next r memo hr => exact change_retains hr fun _ => rfl
  · exact retains_refl c

theorem retains_of_makes {m : CatalogM Nat} (h : CatalogM.Makes m c) : Retains c (m.on c).2 := by
  obtain ⟨ws, ⟨r, -, hon⟩ | ⟨e, hon⟩⟩ := h
  · rw [hon]
    exact retains_append (List.prefix_append ..) rfl
  · rw [hon]
    exact (retains_refl c).of_eq rfl rfl

theorem sync_retains (r : EbuildRepository) (c : Catalog) :
    Retains c ((CatalogM.sync r).on c).2 := by
  obtain ⟨hrepositories, hregistry⟩ := CatalogM.sync_on r c
  exact (retains_refl c).of_eq hrepositories hregistry

/-! ## The listing -/

/-- The registered repositories with their names, in the order in which they were added. -/
def listing (c : Catalog) : List (String × Registered) :=
  c.registered.map fun g => (c.nameOf g.number, g)

theorem Retains.listing_eq (h : Retains c₀ c) (hwf : c₀.WellFormed) : c.listing = c₀.listing := by
  have hregistered : c.registered = c₀.registered := congrArg (·.getD []) h.registry
  unfold listing
  rw [hregistered]
  refine List.map_congr_left fun g hg => ?_
  rw [h.names g.number (hwf.numbers g hg)]

theorem listing_unregister (c : Catalog) (name : String) :
    (c.unregister name).listing = c.listing.filter fun e => e.1 != name := by
  have hregistered : (c.unregister name).registered =
      c.registered.filter fun g => c.nameOf g.number != name := by
    unfold registered Catalog.unregister
    cases c.registry with
    | none => rfl
    | some list => rfl
  unfold listing
  rw [hregistered, List.filter_map]
  rfl

/-- A registration either succeeds, and the repository comes last, or changes nothing. -/
theorem register_listing (importance : Int) (number : Nat) (c : Catalog) :
    (∃ c', (CatalogM.register importance number).on c = (.ok (), c') ∧ c'.nameOf = c.nameOf ∧
      c'.listing = c.listing ++ [(c.nameOf number, ⟨importance, number⟩)]) ∨
      ∃ e, (CatalogM.register importance number).on c = (.error e, c) := by
  rcases CatalogM.register_on importance number c with ⟨list, hregistry, -, hon⟩ | ⟨e, hon⟩
  · have hlist : c.registered = list := congrArg (·.getD []) hregistry
    refine .inl ⟨_, hon, rfl, ?_⟩
    unfold listing
    rw [hlist]
    exact List.map_append
  · exact .inr ⟨e, hon⟩

/-- Adding from keys either succeeds, and the new repository comes last, or leaves the registry as
it was; a repository that was made may be left over then, but it is in no registry. -/
theorem WellFormed.addFromKeys_cases (hc : c.WellFormed) (f : Factory) (keys : RepositoryKeys) :
    (∃ importance number c', CatalogM.importanceOf keys = .ok importance ∧
      (CatalogM.addFromKeys f keys).on c = (.ok number, c') ∧
      c'.listing = c.listing ++ [(c'.nameOf number, ⟨importance, number⟩)]) ∨
      ∃ e c', (CatalogM.addFromKeys f keys).on c = (.error e, c') ∧
        c'.registry = c.registry ∧ c.repositories <+: c'.repositories := by
  rcases CatalogM.addFromKeys_on f keys c with
    ⟨e, ws, hon⟩ | ⟨importance, ws, r, himportance, -, hon⟩
  · exact .inr ⟨e, _, hon, rfl, List.prefix_rfl⟩
  · have hprefix : c.repositories <+: c.repositories ++ [r] := List.prefix_append ..
    have hmade : Retains c { c with warnings := ws, repositories := c.repositories ++ [r] } :=
      retains_append hprefix rfl
    rw [CatalogM.on_map] at hon
    rcases register_listing importance c.repositories.length
        { c with warnings := ws, repositories := c.repositories ++ [r] } with
      ⟨c', hregister, hname, hlast⟩ | ⟨e, hregister⟩
    · rw [hregister] at hon
      refine .inl ⟨importance, c.repositories.length, c', himportance, hon, ?_⟩
      rw [hlast, hmade.listing_eq hc, hname]
    · rw [hregister] at hon
      exact .inr ⟨e, _, hon, rfl, hprefix⟩

/-! ## Recording -/

/-- What an action says to the registry, by its outcome. -/
def factsOf (c : Catalog) : CatalogAction → List RegistryFact
  | .added f keys =>
    match CatalogM.importanceOf keys, (CatalogM.addFromKeys f keys).on c with
    | .ok importance, (.ok number, c') => [.added (c'.nameOf number) ⟨importance, number⟩]
    | _, _ => []
  | .registered importance number =>
    if number < c.repositories.length then
      match ((CatalogM.register importance number).on c).1 with
      | .ok () => [.added (c.nameOf number) ⟨importance, number⟩]
      | .error _ => []
    else []
  | .unregistered name => [.removed name]
  | _ => []

/-- A catalogue that came from an empty one while it had a registry, and what was said to that. -/
inductive Recorded : Catalog → List RegistryFact → Prop where
  | start (t : FileTree) : Recorded { files := t } []
  | acted {c : Catalog} {facts : List RegistryFact} (a : CatalogAction) (h : Recorded c facts)
      (ha : a ≠ .givenUp) : Recorded (c.act a) (facts ++ c.factsOf a)

variable {facts : List RegistryFact}

theorem Recorded.wellFormed (h : Recorded c facts) : c.WellFormed := by
  induction h with
  | start t => exact wellFormed_start t
  | acted a _ _ ih => exact ih.act a

theorem addFromKeys_listing (hc : c.WellFormed) (h : c.listing = standing facts) (f : Factory)
    (keys : RepositoryKeys) :
    (c.act (.added f keys)).listing = standing (facts ++ c.factsOf (.added f keys)) := by
  rcases hc.addFromKeys_cases f keys with
    ⟨importance, number, c', himportance, hon, hlast⟩ | ⟨e, c', hon, hregistry, hprefix⟩
  · have hfacts : c.factsOf (.added f keys) =
        [.added (c'.nameOf number) ⟨importance, number⟩] := by
      unfold factsOf
      dsimp only
      rw [hon, himportance]
    have hact : c.act (.added f keys) = c' := congrArg Prod.snd hon
    rw [hfacts, hact, RegistryFact.standing_append_added, hlast, h]
  · have hfacts : c.factsOf (.added f keys) = [] := by
      unfold factsOf
      dsimp only
      rw [hon]
      cases CatalogM.importanceOf keys <;> rfl
    have hact : c.act (.added f keys) = c' := congrArg Prod.snd hon
    rw [hfacts, List.append_nil, hact, (retains_append hprefix hregistry).listing_eq hc, h]

theorem register_listing_act (h : c.listing = standing facts) (importance : Int) (number : Nat) :
    (c.act (.registered importance number)).listing =
      standing (facts ++ c.factsOf (.registered importance number)) := by
  unfold act factsOf
  dsimp only
  by_cases hnumber : number < c.repositories.length
  · rw [if_pos hnumber, if_pos hnumber]
    rcases register_listing importance number c with ⟨c', hon, -, hlast⟩ | ⟨e, hon⟩
    · rw [hon, hlast, h]
      exact (RegistryFact.standing_append_added ..).symm
    · rw [hon]
      exact h.trans (congrArg standing (List.append_nil facts).symm)
  · rw [if_neg hnumber, if_neg hnumber, List.append_nil, h]

/-- One action. -/
theorem act_listing (hc : c.WellFormed) (h : c.listing = standing facts) {a : CatalogAction}
    (ha : a ≠ .givenUp) : (c.act a).listing = standing (facts ++ c.factsOf a) := by
  have hsame : ∀ c', Retains c c' → c'.listing = standing (facts ++ []) := by
    intro c' hretains
    rw [List.append_nil, hretains.listing_eq hc, h]
  have hrefl := retains_refl c
  cases a with
  | happened e => exact hsame _ (next_framed c e).retains
  | invalidatedAll => exact hsame _ (invalidateAll_framed c).retains
  | regenerated number => exact hsame _ (regenerate_retains number c)
  | edited t => exact hsame _ (hrefl.of_eq rfl rfl)
  | made kind keys => exact hsame _ (retains_of_makes (CatalogM.make_on kind keys c))
  | created f format keys => exact hsame _ (retains_of_makes (CatalogM.create_on f format keys c))
  | added f keys => exact addFromKeys_listing hc h f keys
  | registered importance number => exact register_listing_act h importance number
  | unregistered name =>
    show (c.unregister name).listing = standing (facts ++ [.removed name])
    rw [listing_unregister, RegistryFact.standing_append_removed, h]
  | givenUp => exact absurd rfl ha
  | addedTransport transport => exact hsame _ (hrefl.of_eq rfl rfl)
  | synced r => exact hsame _ (sync_retains r c)
  | usedEapis eapis => exact hsame _ (hrefl.of_eq rfl rfl)
  | usedShuffle shuffle => exact hsame _ (hrefl.of_eq rfl rfl)

theorem Recorded.listing_eq (h : Recorded c facts) : c.listing = standing facts := by
  induction h with
  | start t => rfl
  | acted a h ha ih => exact act_listing h.wellFormed ih ha

/-! ## Look-ups -/

theorem WellFormed.find?_eq_some_iff (h : c.WellFormed) {name : String} {g : Registered} :
    c.find? name = some g ↔ (name, g) ∈ c.listing := by
  constructor
  · intro hfind
    have hname := List.find?_some hfind
    exact List.mem_map.2
      ⟨g, List.mem_of_find?_eq_some hfind, Prod.ext (eq_of_beq hname) rfl⟩
  · intro hmem
    obtain ⟨g', hg, heq⟩ := List.mem_map.1 hmem
    cases heq
    exact h.find?_nameOf hg

theorem Recorded.find?_eq_some_iff (h : Recorded c facts) {name : String} {g : Registered} :
    c.find? name = some g ↔ Stands facts name g := by
  rw [h.wellFormed.find?_eq_some_iff, h.listing_eq, RegistryFact.mem_standing_iff]

theorem Recorded.find?_isSome_iff (h : Recorded c facts) (name : String) :
    (c.find? name).isSome ↔ ∃ g, Stands facts name g := by
  rw [Option.isSome_iff_exists]
  exact exists_congr fun g => h.find?_eq_some_iff

/-- The names that stand are those of the registered repositories. -/
theorem Recorded.mem_names_iff (h : Recorded c facts) (name : String) :
    (∃ g, Stands facts name g) ↔ name ∈ c.registered.map fun g => c.nameOf g.number := by
  have hfst : (c.registered.map fun g => c.nameOf g.number) = c.listing.map Prod.fst := by
    unfold listing
    rw [List.map_map]
    rfl
  rw [hfst, h.listing_eq, List.mem_map]
  constructor
  · rintro ⟨g, hstands⟩
    exact ⟨(name, g), RegistryFact.mem_standing_iff.2 hstands, rfl⟩
  · rintro ⟨⟨name', g⟩, hmem, rfl⟩
    exact ⟨g, RegistryFact.mem_standing_iff.1 hmem⟩

/-! ## Ranks -/

theorem importance_trans (a b d : Registered) (hab : decide (b.importance ≤ a.importance) = true)
    (hbd : decide (d.importance ≤ b.importance) = true) :
    decide (d.importance ≤ a.importance) = true := by
  simp only [decide_eq_true_eq] at *
  omega

theorem importance_total (a b : Registered) :
    (decide (b.importance ≤ a.importance) || decide (a.importance ≤ b.importance)) = true := by
  simp only [Bool.or_eq_true, decide_eq_true_eq]
  omega

theorem pairwise_ranked (c : Catalog) :
    c.ranked.Pairwise fun a b => b.importance ≤ a.importance :=
  (List.pairwise_mergeSort importance_trans importance_total c.registered).imp of_decide_eq_true

/-- Repositories of one importance stay in the order in which they were added. -/
theorem filter_ranked (c : Catalog) (importance : Int) :
    c.ranked.filter (fun g => g.importance = importance) =
      c.registered.filter fun g => g.importance = importance := by
  refine filter_mergeSort importance_trans importance_total c.registered fun a b ha hb => ?_
  simp only [decide_eq_true_eq] at *
  omega

/-- Names compare by numbers: an importance, or the least integer. -/
theorem moreImportant_iff {a b : String} : c.moreImportant a b = true ↔
    (c.importance b).getD Text.leastInteger < (c.importance a).getD Text.leastInteger := by
  unfold moreImportant
  rw [decide_eq_true_eq]

theorem isStrictWeakOrder_moreImportant (c : Catalog) :
    IsStrictWeakOrder String fun a b => c.moreImportant a b = true where
  irrefl a h := by
    rw [moreImportant_iff] at h
    omega
  trans a b d hab hbd := by
    rw [moreImportant_iff] at *
    omega
  incomp_trans a b d hab hbd := by
    simp only [moreImportant_iff] at *
    omega

/-- The names of the registered repositories, the more important first. -/
def rankedNames (c : Catalog) : List String := c.ranked.map fun g => c.nameOf g.number

/-- A registered repository stands in the ranking with its importance. -/
theorem WellFormed.importance_eq (h : c.WellFormed) {name : String}
    (hname : (c.fetch name).isSome) :
    ∃ hi : c.rankedNames.idxOf name < c.ranked.length,
      c.importance name = some c.ranked[c.rankedNames.idxOf name].importance := by
  have hmem : name ∈ c.rankedNames := by
    unfold rankedNames
    rw [(c.perm_ranked.map _).mem_iff]
    by_contra hnot
    rw [fetch_eq_none_iff.2 hnot] at hname
    cases hname
  have hi := List.idxOf_lt_length_iff.2 hmem
  have hlt : c.rankedNames.idxOf name < c.ranked.length := by
    have hlength : c.rankedNames.length = c.ranked.length := List.length_map _
    omega
  have hat : c.nameOf c.ranked[c.rankedNames.idxOf name].number = name := by
    have hget := List.getElem_idxOf hi
    exact (List.getElem_map fun g : Registered => c.nameOf g.number).symm.trans hget
  have hfind := h.find?_nameOf (c.perm_ranked.mem_iff.1 (List.getElem_mem hlt))
  rw [hat] at hfind
  refine ⟨hlt, ?_⟩
  unfold importance
  rw [hfind]
  rfl

theorem WellFormed.precedes (h : c.WellFormed) {a b : String} (ha : (c.fetch a).isSome)
    (hb : (c.fetch b).isSome) (hmore : c.moreImportant a b = true) :
    c.rankedNames.idxOf a < c.rankedNames.idxOf b := by
  obtain ⟨hi, ha⟩ := h.importance_eq ha
  obtain ⟨hj, hb⟩ := h.importance_eq hb
  rw [moreImportant_iff, ha, hb, Option.getD_some, Option.getD_some] at hmore
  by_contra hnot
  rcases Nat.lt_or_eq_of_le (Nat.le_of_not_lt hnot) with hlt | heq
  · have hle := List.pairwise_iff_getElem.1 c.pairwise_ranked _ _ hj hi hlt
    omega
  · simp only [heq] at hmore
    omega

/-! ## Failures -/

theorem register_of_error {importance : Int} {e : Error}
    (h : (CatalogM.register importance number).on c = (.error e, c')) : c' = c := by
  rcases register_listing importance number c with ⟨c'', hon, -, -⟩ | ⟨e', hon⟩
  · rw [hon] at h
    cases h
  · rw [hon] at h
    cases h
    rfl

theorem WellFormed.addFromKeys_of_error (hc : c.WellFormed) {f : Factory} {keys : RepositoryKeys}
    {e : Error} (h : (CatalogM.addFromKeys f keys).on c = (.error e, c')) :
    c'.registry = c.registry ∧ c'.listing = c.listing ∧ c.repositories <+: c'.repositories := by
  rcases hc.addFromKeys_cases f keys with
    ⟨importance, number, c'', -, hon, -⟩ | ⟨e', c'', hon, hregistry, hprefix⟩
  · rw [hon] at h
    cases h
  · rw [hon] at h
    cases h
    exact ⟨hregistry, (retains_append hprefix hregistry).listing_eq hc, hprefix⟩

/-! ## Answers -/

/-- What a registry answers when this was said to it. -/
structure AnswersBy (c : Catalog) (facts : List RegistryFact) : Prop where
  distinct : (c.registered.map fun g => c.nameOf g.number).Nodup
  fetch_isSome : ∀ name, (c.fetch name).isSome ↔ ∃ g, Stands facts name g
  importance_isSome : ∀ name, (c.importance name).isSome ↔ ∃ g, Stands facts name g
  found : ∀ name g, Stands facts name g → c.fetch name = some g.number ∧
    c.importance name = some g.importance ∧ c.nameOf g.number = name
  /-- The registry is in the order in which repositories were added. -/
  inserted : c.listing = standing facts
  count : ∀ names : List String, names.Nodup → (∀ name, name ∈ names ↔ ∃ g, Stands facts name g) →
    c.registered.length = names.length
  perm : c.ranked.Perm c.registered
  descending : c.ranked.Pairwise fun a b => b.importance ≤ a.importance
  stable : ∀ importance : Int, c.ranked.filter (fun g => g.importance = importance) =
    c.registered.filter fun g => g.importance = importance
  weak : IsStrictWeakOrder String fun a b => c.moreImportant a b = true
  precedes : ∀ a b, (c.fetch a).isSome → (c.fetch b).isSome → c.moreImportant a b = true →
    c.rankedNames.idxOf a < c.rankedNames.idxOf b
  register_error : ∀ importance number e c',
    (CatalogM.register importance number).on c = (.error e, c') → c' = c
  addFromKeys_error : ∀ f keys e c', (CatalogM.addFromKeys f keys).on c = (.error e, c') →
    c'.registry = c.registry ∧ c'.listing = c.listing ∧ c.repositories <+: c'.repositories

/-- Whatever was done, by whatever keys, and however much of it failed. -/
theorem Recorded.answers (h : Recorded c facts) : AnswersBy c facts where
  distinct := h.wellFormed.names
  fetch_isSome name := by
    rw [← h.find?_isSome_iff]
    unfold fetch
    rw [Option.isSome_map]
  importance_isSome name := by
    rw [← h.find?_isSome_iff]
    unfold importance
    rw [Option.isSome_map]
  found name g hstands := by
    have hfind := h.find?_eq_some_iff.2 hstands
    have hname := List.find?_some hfind
    refine ⟨?_, ?_, eq_of_beq hname⟩
    · unfold fetch
      rw [hfind]
      rfl
    · unfold importance
      rw [hfind]
      rfl
  inserted := h.listing_eq
  count names hnodup hnames := by
    have hperm : (c.registered.map fun g => c.nameOf g.number).Perm names := by
      refine (List.perm_ext_iff_of_nodup h.wellFormed.names hnodup).2 fun name => ?_
      rw [hnames name, h.mem_names_iff]
    rw [← hperm.length_eq, List.length_map]
  perm := c.perm_ranked
  descending := c.pairwise_ranked
  stable := c.filter_ranked
  weak := c.isStrictWeakOrder_moreImportant
  precedes a b ha hb hmore := h.wellFormed.precedes ha hb hmore
  register_error importance number e c' hon := register_of_error hon
  addFromKeys_error f keys e c' hon := h.wellFormed.addFromKeys_of_error hon

/-- A name is taken out and used again; the last registration fails. -/
def reopenedCatalog : Catalog :=
  (((({ files := .empty } : Catalog).act (.made .virtuals ⟨[]⟩)).act
    (.registered 5 0)).act (.unregistered "virtuals")).act
    (.added .builtIn ⟨[("format", "virtuals"), ("importance", "-3")]⟩) |>.act (.registered 7 0)

theorem answers_reopenedCatalog : ∃ facts, Recorded reopenedCatalog facts ∧
    facts = [.added "virtuals" ⟨5, 0⟩, .removed "virtuals", .added "virtuals" ⟨-3, 1⟩] ∧
    AnswersBy reopenedCatalog facts := by
  have hrecorded : Recorded reopenedCatalog _ :=
    .acted _ (.acted _ (.acted _ (.acted _ (.acted _ (.start .empty) nofun) nofun) nofun) nofun)
      nofun
  exact ⟨_, hrecorded, by decide +kernel, Recorded.answers hrecorded⟩

end Catalog

end PackageCatalog
