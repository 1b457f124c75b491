import PackageCatalog.Proofs.Catalog.Coherence
import PackageCatalog.Proofs.Index.Recounting
import PackageCatalog.Proofs.Profile.Declarations
import PackageCatalog.Proofs.Repository.UpToDate

/-!
# Catalogues in use

`Reached c` says that a catalogue came from an empty one by anything that can be done with it:
repositories are made, registered and unregistered, asked, invalidated and regenerated, profiles are
selected, and the files change in any way.  Whatever was done, it is well-formed:

    Reached c → c.WellFormed                                                  (Reached.wellFormed)

What its indexes know hangs together, though it may tell of files that are long gone; every profile
that is remembered declares each virtual once; no two registered repositories share a name.
-/

namespace PackageCatalog

open CatalogM (Keeps worked)

/-! ## Well-formed repositories -/

/-- What a source repository remembers, whatever the files were. -/
structure EbuildRepository.WellFormed (r : EbuildRepository) (memo : EbuildMemo) : Prop extends
    Parts (Index.Grounded r.index) ProfileChain.Unambiguous memo where
  named : r.Named

/-- What a database of installed packages remembers, whatever the files were. -/
structure InstalledRepository.WellFormed (r : InstalledRepository) (memo : InstalledMemo) :
    Prop extends r.Remembers (Index.Grounded r.index) memo where
  named : r.Named

def Repository.WellFormed : Repository → Prop
  | .ebuild r memo => r.WellFormed memo
  | .installed r memo => r.WellFormed memo
  | .installedVirtuals .. => True
  | .virtuals _ => True

theorem Index.reply_grounded {x : Index} {t : FileTree} {α : Type} (q : Index.Query α) :
    Scan.Keeps (Grounded x) (x.reply q) t :=
  fun j hj => (Index.reply_learned j.memo q j .refl).grounded hj

namespace EbuildRepository

variable {r : EbuildRepository} {t : FileTree} {memo memo' : EbuildMemo} {α : Type}

theorem WellFormed.of_parts (h : r.WellFormed memo)
    (h' : Parts (Index.Grounded r.index) ProfileChain.Unambiguous memo') : r.WellFormed memo' :=
  ⟨h', h.named⟩

theorem Named.wellFormed_fresh (h : r.Named) : r.WellFormed r.freshMemo :=
  ⟨⟨Index.grounded_empty, ProfileChain.unambiguous_empty⟩, h⟩

theorem WellFormed.asked (h : r.WellFormed memo) (hasked : r.Asked t memo memo') :
    r.WellFormed memo' :=
  h.of_parts (hasked.parts Index.reply_grounded ProfileChain.maintained_unambiguous h.toParts)

/-- Questions that select a profile are no exception. -/
theorem reply_wellFormed (q : EbuildQuestion α) : Scan.Keeps r.WellFormed (r.reply q) t := by
  intro j hj
  cases hselects : q.selects with
  | false => exact hj.of_parts (reply_keeps Index.reply_grounded
      ProfileChain.maintained_unambiguous hselects j hj.toParts)
  | true =>
    refine hj.of_parts ?_
    cases q with
    | profile q =>
      cases q with
      | select k => exact onProfiles_keeps (ProfileChain.select_unambiguous k) j hj.toParts
      | selectByArch arch =>
        exact onProfiles_keeps (ProfileChain.selectByArch_unambiguous arch) j hj.toParts
      | _ => cases hselects
    | _ => cases hselects

end EbuildRepository

theorem InstalledRepository.Named.wellFormed_fresh {r : InstalledRepository} (h : r.Named) :
    r.WellFormed r.freshMemo :=
  ⟨⟨Index.grounded_empty, nofun⟩, h⟩

theorem InstalledRepository.WellFormed.asked {r : InstalledRepository} {t : FileTree}
    {memo memo' : InstalledMemo} (h : r.WellFormed memo) (hasked : r.Asked t memo memo') :
    r.WellFormed memo' :=
  ⟨hasked.of_keeps h.toRemembers fun q => reply_keeps (fun q _ => Index.reply_grounded q) q,
    h.named⟩

theorem Repository.WellFormed.invalidated {r : Repository} (h : r.WellFormed) :
    r.invalidated.WellFormed := by
  cases r with
  | ebuild r memo => exact h.named.wellFormed_fresh
  | installed r memo => exact h.named.wellFormed_fresh
  | installedVirtuals root memo => trivial
  | virtuals memo => trivial

/-- A repository whose name is free is registered, and nothing else changes. -/
theorem CatalogM.register_on (importance : Int) (number : Nat) (c : Catalog) :
    (∃ list, c.registry = some list ∧ c.fetch (c.nameOf number) = none ∧
      (register importance number).on c =
        (.ok (), { c with registry := some (list ++ [⟨importance, number⟩]) })) ∨
      ∃ e, (register importance number).on c = (.error e, c) := by
  unfold register
  rw [on_bind_get]
  cases hregistry : c.registry with
  | none => exact .inr ⟨_, rfl⟩
  | some list =>
    dsimp only
    cases hfree : c.fetch (c.nameOf number) with
    | none => exact .inl ⟨list, rfl, rfl, rfl⟩
    | some taken => exact .inr ⟨_, rfl⟩

namespace Catalog

/-! ## Well-formed catalogues -/

structure WellFormed (c : Catalog) : Prop where
  repositories : ∀ r ∈ c.repositories, r.WellFormed
  numbers : ∀ g ∈ c.registered, g.number < c.repositories.length
  names : (c.registered.map fun g => c.nameOf g.number).Nodup

variable {c c' : Catalog} {number : Nat}

theorem wellFormed_start (t : FileTree) : WellFormed { files := t } :=
  ⟨List.forall_mem_nil _, List.forall_mem_nil _, List.nodup_nil⟩

/-- Files, warnings, transports and the like do not come into it. -/
theorem WellFormed.of_eq (h : c.WellFormed) (hrepositories : c'.repositories = c.repositories)
    (hregistry : c'.registry = c.registry) : c'.WellFormed := by
  have hname : c'.nameOf = c.nameOf := by
    funext number
    unfold nameOf
    rw [hrepositories]
  have hregistered : c'.registered = c.registered := congrArg (·.getD []) hregistry
  refine ⟨?_, ?_, ?_⟩
  · rw [hrepositories]
    exact h.repositories
  · rw [hrepositories, hregistered]
    exact h.numbers
  · rw [hname, hregistered]
    exact h.names

theorem WellFormed.worked (h : c.WellFormed) {r s : Repository}
    (hr : c.repositories[number]? = some r) (hinvalidated : s.invalidated = r.invalidated)
    (hs : s.WellFormed) (warnings : List Warning) : (worked c number s warnings).WellFormed where
  repositories r' hr' := by
    obtain ⟨m, hm⟩ := List.mem_iff_getElem?.1 hr'
    rw [getElem?_worked hr] at hm
    by_cases hnumber : number = m
    · rw [if_pos hnumber] at hm
      exact Option.some_inj.1 hm ▸ hs
    · rw [if_neg hnumber] at hm
      exact h.repositories r' (List.mem_of_getElem? hm)
  numbers g hg := by
    rw [show (CatalogM.worked c number s warnings).repositories.length = c.repositories.length
      from List.length_set]
    exact h.numbers g hg
  names := by
    rw [((Framed.refl c).worked hr hinvalidated warnings).nameOf_eq]
    exact h.names

theorem WellFormed.getElem? (h : c.WellFormed) {r : Repository}
    (hr : c.repositories[number]? = some r) : r.WellFormed :=
  h.repositories r (List.mem_of_getElem? hr)

theorem WellFormed.invalidate (h : c.WellFormed) (number : Nat) :
    (c.invalidate number).WellFormed := by
  cases hr : c.repositories[number]? with
  | none => exact (invalidate_eq_self hr).symm ▸ h
  | some r =>
    rw [invalidate_eq hr]
    exact h.worked hr r.invalidated_invalidated (h.getElem? hr).invalidated c.warnings

theorem WellFormed.invalidateAll (h : c.WellFormed) : c.invalidateAll.WellFormed :=
  List.foldlRecOn c.ranked _ h fun _ h g _ => h.invalidate g.number

theorem WellFormed.unregister (h : c.WellFormed) (name : String) :
    (c.unregister name).WellFormed := by
  have hsublist : (c.unregister name).registered.Sublist c.registered := by
    unfold registered Catalog.unregister
    cases c.registry with
    | none => exact .refl _
    | some list => exact List.filter_sublist
  exact ⟨h.repositories, fun g hg => h.numbers g (hsublist.subset hg),
    h.names.sublist (hsublist.map _)⟩

theorem WellFormed.giveUp (h : c.WellFormed) : { c with registry := none }.WellFormed :=
  ⟨h.repositories, List.forall_mem_nil _, List.nodup_nil⟩

/-- A repository that is made keeps the numbers and names of those before it. -/
theorem WellFormed.append (h : c.WellFormed) {r : Repository} (hr : r.WellFormed) :
    { c with repositories := c.repositories ++ [r] }.WellFormed := by
  have hname : ∀ g ∈ c.registered,
      nameOf { c with repositories := c.repositories ++ [r] } g.number = c.nameOf g.number := by
    intro g hg
    unfold nameOf
    rw [List.getElem?_append_left (h.numbers g hg)]
  refine ⟨fun s hs => ?_, fun g hg => ?_, ?_⟩
  · rcases List.mem_append.1 hs with hs | hs
    · exact h.repositories s hs
    · exact List.mem_singleton.1 hs ▸ hr
  · exact (h.numbers g hg).trans (by simp)
  · show (c.registered.map _).Nodup
    rw [List.map_congr_left hname]
    exact h.names

theorem perm_ranked (c : Catalog) : c.ranked.Perm c.registered := List.mergeSort_perm _ _

theorem fetch_eq_none_iff {name : String} :
    c.fetch name = none ↔ name ∉ c.registered.map fun g => c.nameOf g.number := by
  unfold fetch find?
  simp

/-- No two registered repositories share a name, so each is found by its own. -/
theorem WellFormed.find?_nameOf (h : c.WellFormed) {g : Registered} (hg : g ∈ c.registered) :
    c.find? (c.nameOf g.number) = some g := by
  cases hfind : c.find? (c.nameOf g.number) with
  | none => exact absurd BEq.rfl (List.find?_eq_none.1 hfind g hg)
  | some g' =>
    have hnames := List.find?_some hfind
    rw [List.inj_on_of_nodup_map h.names (List.mem_of_find?_eq_some hfind) hg (eq_of_beq hnames)]

/-- A repository is registered under a name that is free. -/
theorem WellFormed.register (h : c.WellFormed) (hnumber : number < c.repositories.length)
    (importance : Int) : ((CatalogM.register importance number).on c).2.WellFormed := by
  rcases CatalogM.register_on importance number c with
    ⟨list, hregistry, hfree, hon⟩ | ⟨e, hon⟩
  · have hlist : c.registered = list := congrArg (·.getD []) hregistry
    rw [hon]
    refine ⟨h.repositories, ?_, ?_⟩
    · intro g hg
      rcases List.mem_append.1 hg with hg | hg
      · exact h.numbers g (hlist ▸ hg)
      · obtain rfl := List.mem_singleton.1 hg
        exact hnumber
    · show ((list ++ [(⟨importance, number⟩ : Registered)]).map fun g => c.nameOf g.number).Nodup
      rw [List.map_append, ← hlist]
      refine List.nodup_append.2 ⟨h.names, List.nodup_singleton _, ?_⟩
      rintro a ha b hb rfl
      obtain rfl := List.mem_singleton.1 hb
      exact fetch_eq_none_iff.1 hfree ha
  · rw [hon]
    exact h

end Catalog

/-! ## What keeps a catalogue well-formed -/

namespace CatalogM

open Catalog (WellFormed)

variable {α : Type}

theorem keepIndex_wellFormed (number : Nat) (x : ProviderIndex) :
    Keeps WellFormed (keepIndex number x) := by
  intro c h
  unfold keepIndex
  rw [on_bind_get]
  split
  · next root memo hr =>
    exact h.worked (s := .installedVirtuals root (some x)) hr rfl trivial c.warnings
  · next memo hr => exact h.worked (s := .virtuals (some x)) hr rfl trivial c.warnings
  · exact h

theorem undisturbed_wellFormed : Undisturbed WellFormed where
  warned h _ := h.of_eq rfl rfl
  ebuild {c number r memo memo'} h hr hasked ws := by
    have hmemo : r.WellFormed memo := h.getElem? hr
    exact h.worked (s := .ebuild r memo') hr rfl (hmemo.asked hasked) ws
  installed {c number r memo memo'} h hr hasked ws := by
    have hmemo : r.WellFormed memo := h.getElem? hr
    exact h.worked (s := .installed r memo') hr rfl (hmemo.asked hasked) ws

theorem inquired_wellFormed : Inquired WellFormed where
  toUndisturbed := undisturbed_wellFormed
  built _ := undisturbed_wellFormed.index fun x => keepIndex_wellFormed _ x

theorem onEbuild?_wellFormed {work : EbuildRepository → Scan EbuildMemo α}
    (hwork : ∀ r t, Scan.Keeps r.WellFormed (work r) t) (number : Nat) :
    Keeps WellFormed (onEbuild? number work) := by
  intro c h
  rcases onEbuild?_on_cases number work c with ⟨r, memo, hr, hon⟩ | hon
  · rw [hon]
    have hmemo := hwork r c.files ⟨memo, c.warnings⟩ (h.getElem? hr)
    exact h.worked (s := .ebuild r ((work r).on c.files ⟨memo, c.warnings⟩).2.memo) hr rfl hmemo _
  · rw [hon]
    exact h

theorem onProfiles?_wellFormed {work : EbuildRepository → Scan ChainMemo α}
    (hwork : ∀ r t, Scan.Keeps ProfileChain.Unambiguous (work r) t) (number : Nat) :
    Keeps WellFormed (onEbuild? number fun r => EbuildMemo.onProfiles (work r)) :=
  onEbuild?_wellFormed (fun r t j hj =>
    hj.of_parts (EbuildRepository.onProfiles_keeps (hwork r t) j hj.toParts)) number

theorem invalidateVirtuals_wellFormed : Keeps WellFormed invalidateVirtuals := by
  intro c h
  unfold invalidateVirtuals
  rw [on_modify]
  dsimp only
  split
  · exact h.invalidate _
  · exact h

/-- A selection works on the profiles, and then may drop the virtuals. -/
theorem Keeps.selection {I : Catalog → Prop} {β : Type} {work : CatalogM (Option α)}
    (hwork : Keeps I work) (hdrop : Keeps I invalidateVirtuals) (drops : Option α → Bool)
    (answer : Option α → β) : Keeps I (do
      let found ← work
      if drops found then invalidateVirtuals
      return answer found) := by
  refine hwork.bind fun found => ?_
  split
  · exact hdrop.bind fun _ => keeps_pure _
  · exact keeps_pure _

/-- A change of the memo of one repository. -/
theorem change_wellFormed {σ : Type} {I : σ → Prop} {number : Nat} {memo : σ}
    {keep : σ → Repository} {work : Change σ Unit} {c : Catalog} (h : c.WellFormed)
    (hr : c.repositories[number]? = some (keep memo)) (hmemo : I memo) (hwork : Change.Keeps I work)
    (hkeep : ∀ memo', I memo' → (keep memo').WellFormed)
    (hinvalidated : ∀ memo', (keep memo').invalidated = (keep memo).invalidated) :
    ((change number memo keep work).on c).2.WellFormed := by
  have hmemo' := hwork ⟨c.files, memo, c.warnings⟩ hmemo
  have hworked := h.worked hr (hinvalidated _) (hkeep _ hmemo')
    (work.on ⟨c.files, memo, c.warnings⟩).2.warnings
  unfold change
  rw [on_bind_get]
  exact hworked.of_eq rfl rfl

theorem regenerate_wellFormed (number : Nat) : Keeps WellFormed (regenerate number) := by
  intro c h
  unfold regenerate
  rw [on_bind_get]
  split
  · next r memo hr =>
    have hr' : r.WellFormed memo := h.getElem? hr
    refine change_wellFormed h hr hr'.toParts
      (EbuildRepository.regenerate_keeps fun q _ => Index.reply_grounded q)
      (fun memo' hmemo' => ?_) fun _ => rfl
    exact hr'.of_parts hmemo'
  · next r memo hr =>
    have hr' : r.WellFormed memo := h.getElem? hr
    refine change_wellFormed h hr hr'.toRemembers
      (InstalledRepository.regenerate_keeps fun q _ => Index.reply_grounded q)
      (fun memo' hmemo' => ?_) fun _ => rfl
    exact ⟨hmemo', hr'.named⟩
  · exact h

/-! ### Making repositories -/

theorem scan_on (s : Scan Unit α) (c : Catalog) : (scan s).on c =
    ((s.run c.files ()).1, { c with warnings := c.warnings ++ (s.run c.files ()).2.2 }) := by
  unfold scan
  rw [on_bind_get]
  generalize s.run c.files () = found
  obtain ⟨result, memo, ws⟩ := found
  cases result <;> rfl

/-- What a repository of a kind is, when it is made from these keys. -/
inductive MadeFrom (context : RepositoryContext) (keys : RepositoryKeys) (t : FileTree) :
    RepositoryKind → Repository → Prop where
  | ebuild {r : EbuildRepository}
    (h : ((EbuildRepository.ofKeys context keys : Scan Unit _).on t ⟨(), []⟩).1 = .ok r) :
    MadeFrom context keys t .ebuild (.ebuild r r.freshMemo)
  | installed {r : InstalledRepository} (h : InstalledRepository.ofKeys context keys = .ok r) :
    MadeFrom context keys t .installed (.installed r r.freshMemo)
  | installedVirtuals {root : String} (hroot : keys.value? "root" = some root) :
    MadeFrom context keys t .installedVirtuals (.installedVirtuals root none)
  | virtuals : MadeFrom context keys t .virtuals (.virtuals none)

theorem MadeFrom.wellFormed {context : RepositoryContext} {keys : RepositoryKeys} {t : FileTree}
    {kind : RepositoryKind} {r : Repository} (h : MadeFrom context keys t kind r) :
    r.WellFormed := by
  cases h with
  | ebuild h => exact (EbuildRepository.named_of_ofKeys h).wellFormed_fresh
  | installed h => exact (InstalledRepository.named_of_ofKeys h).wellFormed_fresh
  | installedVirtuals => trivial
  | virtuals => trivial

/-- The repository is the last one, and nothing else changes but the warnings. -/
theorem make_cases (kind : RepositoryKind) (keys : RepositoryKeys) (c : Catalog) : ∃ ws,
    (∃ r, MadeFrom (context c) keys c.files kind r ∧
      (make kind keys).on c = (.ok c.repositories.length,
        { c with warnings := ws, repositories := c.repositories ++ [r] })) ∨
    ∃ e, (make kind keys).on c = (.error e, { c with warnings := ws }) := by
  unfold make
  rw [on_bind_get]
  cases kind with
  | ebuild =>
    have hscan := scan_on (EbuildRepository.ofKeys (context c) keys) c
    dsimp only
    cases hmade : ((EbuildRepository.ofKeys (context c) keys : Scan Unit _).run c.files ()).1 with
    | error e =>
      rw [hmade] at hscan
      exact ⟨_, .inr ⟨e, on_bind_of_error hscan _⟩⟩
    | ok r =>
      rw [hmade] at hscan
      exact ⟨_, .inl ⟨.ebuild r r.freshMemo, .ebuild hmade, on_bind_of_ok hscan _⟩⟩
  | installed =>
    dsimp only
    cases hmade : InstalledRepository.ofKeys (context c) keys with
    | error e => exact ⟨_, .inr ⟨e, rfl⟩⟩
    | ok r => exact ⟨_, .inl ⟨.installed r r.freshMemo, .installed hmade, rfl⟩⟩
  | installedVirtuals =>
    dsimp only
    cases hroot : keys.value? "root" with
    | none => exact ⟨_, .inr ⟨_, rfl⟩⟩
    | some root => exact ⟨_, .inl ⟨.installedVirtuals root none, .installedVirtuals hroot, rfl⟩⟩
  | virtuals => exact ⟨_, .inl ⟨.virtuals none, .virtuals, rfl⟩⟩

/-- A repository that is made is the last one, and nothing else changes but the warnings. -/
def Makes (m : CatalogM Nat) (c : Catalog) : Prop := ∃ ws,
  (∃ r : Repository, r.WellFormed ∧ m.on c = (.ok c.repositories.length,
    { c with warnings := ws, repositories := c.repositories ++ [r] })) ∨
  ∃ e, m.on c = (.error e, { c with warnings := ws })

theorem make_on (kind : RepositoryKind) (keys : RepositoryKeys) (c : Catalog) :
    Makes (make kind keys) c := by
  obtain ⟨ws, ⟨r, hmade, hon⟩ | herror⟩ := make_cases kind keys c
  · exact ⟨ws, .inl ⟨r, hmade.wellFormed, hon⟩⟩
  · exact ⟨ws, .inr herror⟩

theorem create_of_known {f : Factory} {format : String} {kind : RepositoryKind}
    (h : f.get? format = some kind) (keys : RepositoryKeys) :
    create f format keys = make kind keys := by
  unfold create create?
  rw [h]
  simp only [bind_assoc, pure_bind, bind_pure]

theorem create_on (f : Factory) (format : String) (keys : RepositoryKeys) (c : Catalog) :
    Makes (create f format keys) c := by
  cases hkind : f.get? format with
  | none =>
    unfold create create?
    rw [hkind]
    exact ⟨c.warnings, .inr ⟨_, rfl⟩⟩
  | some kind =>
    rw [create_of_known hkind]
    exact make_on kind keys c

/-- Whether a format that is not known is ignored makes no difference to the catalogue. -/
theorem create?_on_snd (f : Factory) (missing : MissingFormat) (format : String)
    (keys : RepositoryKeys) (c : Catalog) :
    ((create? f missing format keys).on c).2 = ((create f format keys).on c).2 := by
  cases hkind : f.get? format with
  | none =>
    unfold create create?
    rw [hkind]
    cases missing <;> rfl
  | some kind =>
    rw [create_of_known hkind]
    unfold create?
    rw [hkind]
    exact congrArg Prod.snd (on_map some (make kind keys) c)

theorem Makes.wellFormed {m : CatalogM Nat} {c : Catalog} (hm : Makes m c) (h : c.WellFormed) :
    (m.on c).2.WellFormed := by
  obtain ⟨ws, ⟨r, hr, hon⟩ | ⟨e, hon⟩⟩ := hm
  · rw [hon]
    exact (h.append hr).of_eq rfl rfl
  · rw [hon]
    exact h.of_eq rfl rfl

/-- With an importance and a registry, what is left is to make the repository and register it. -/
theorem addFromKeys_on_of_ok (f : Factory) {keys : RepositoryKeys} {importance : Int}
    (h : importanceOf keys = .ok importance) (c : Catalog) : (addFromKeys f keys).on c =
      if c.registry.isNone then (.error (.configuration .registryGone), c)
      else (do
        let number ← create f ((keys.value? "format").getD "ebuild") keys
        register importance number
        return number : CatalogM Nat).on c := by
  have hlift : (liftM (importanceOf keys) : CatalogM Int).on c = (.ok importance, c) := by
    rw [h]
    rfl
  unfold addFromKeys
  rw [on_bind_of_ok hlift, on_bind_get]
  cases hgone : c.registry.isNone with
  | true => rfl
  | false => rfl

/-- A repository that is made from its keys is registered if its name is free. -/
theorem addFromKeys_on (f : Factory) (keys : RepositoryKeys) (c : Catalog) :
    (∃ e ws, (addFromKeys f keys).on c = (.error e, { c with warnings := ws })) ∨
      ∃ importance ws r, importanceOf keys = .ok importance ∧ r.WellFormed ∧
        (addFromKeys f keys).on c =
          ((fun _ => c.repositories.length) <$>
            register importance c.repositories.length).on
              { c with warnings := ws, repositories := c.repositories ++ [r] } := by
  cases himportance : importanceOf keys with
  | error e =>
    refine .inl ⟨e, c.warnings, ?_⟩
    unfold addFromKeys
    rw [himportance]
    rfl
  | ok importance =>
    rw [addFromKeys_on_of_ok f himportance]
    split
    · exact .inl ⟨_, c.warnings, rfl⟩
    · obtain ⟨ws, ⟨r, hr, hon⟩ | ⟨e, hon⟩⟩ :=
        create_on f ((keys.value? "format").getD "ebuild") keys c
      · rw [on_bind_of_ok hon, bind_pure_comp]
        exact .inr ⟨importance, ws, r, rfl, hr, rfl⟩
      · rw [on_bind_of_error hon]
        exact .inl ⟨e, ws, rfl⟩

theorem addFromKeys_wellFormed (f : Factory) (keys : RepositoryKeys) :
    Keeps WellFormed (addFromKeys f keys) := by
  intro c h
  rcases addFromKeys_on f keys c with ⟨e, ws, hon⟩ | ⟨importance, ws, r, -, hr, hon⟩
  · rw [hon]
    exact h.of_eq rfl rfl
  · have hmade : WellFormed { c with
        warnings := ws, repositories := c.repositories ++ [r] } := (h.append hr).of_eq rfl rfl
    rw [hon, on_map]
    exact hmade.register (by simp) importance

/-- Syncing works on the transports only. -/
theorem sync_on (r : EbuildRepository) (c : Catalog) :
    ((sync r).on c).2.repositories = c.repositories ∧ ((sync r).on c).2.registry = c.registry := by
  unfold sync
  split
  · exact ⟨rfl, rfl⟩
  · rw [on_bind_get]
    split
    · exact ⟨rfl, rfl⟩
    · next k log _ =>
      dsimp only
      cases (syncTargets log.transport r.location r.targets r.options).result <;>
        exact ⟨rfl, rfl⟩

theorem sync_wellFormed (r : EbuildRepository) : Keeps WellFormed (sync r) :=
  fun c h => h.of_eq (sync_on r c).1 (sync_on r c).2

end CatalogM

/-! ## Catalogues in use -/

/-- What can be done with a catalogue. -/
inductive CatalogAction : Type 1 where
  /-- A question, a selection or an invalidation. -/
  | happened (e : CatalogEvent)
  | invalidatedAll
  | regenerated (number : Nat)
  /-- The files are changed from outside, in any way. -/
  | edited (t : FileTree)
  /-- A repository is made, and not registered. -/
  | made (kind : RepositoryKind) (keys : RepositoryKeys)
  /-- So it is by the name of a format, ignored or not if it is not known. -/
  | created (f : Factory) (format : String) (keys : RepositoryKeys)
  /-- A repository is made and registered. -/
  | added (f : Factory) (keys : RepositoryKeys)
  | registered (importance : Int) (number : Nat)
  | unregistered (name : String)
  /-- The registry is given up; what was registered stays as it is. -/
  | givenUp
  | addedTransport (transport : Transport)
  | synced (r : EbuildRepository)
  | usedEapis (eapis : Option EapiTable)
  | usedShuffle (shuffle : Shuffle)

namespace Catalog

/-- The catalogue after an action, be it a failure or not. -/
def act (c : Catalog) : CatalogAction → Catalog
  | .happened e => c.next e
  | .invalidatedAll => c.invalidateAll
  | .regenerated number => ((CatalogM.regenerate number).on c).2
  | .edited t => { c with files := t }
  | .made kind keys => ((CatalogM.make kind keys).on c).2
  | .created f format keys => ((CatalogM.create f format keys).on c).2
  | .added f keys => ((CatalogM.addFromKeys f keys).on c).2
  | .registered importance number =>
    if number < c.repositories.length then ((CatalogM.register importance number).on c).2 else c
  | .unregistered name => c.unregister name
  | .givenUp => { c with registry := none }
  | .addedTransport transport => ((CatalogM.addTransport transport).on c).2
  | .synced r => ((CatalogM.sync r).on c).2
  | .usedEapis eapis => { c with eapis := eapis }
  | .usedShuffle shuffle => { c with shuffle := shuffle }

/-- A catalogue that came from an empty one. -/
inductive Reached : Catalog → Prop where
  | start (t : FileTree) : Reached { files := t }
  | acted {c : Catalog} (a : CatalogAction) (h : Reached c) : Reached (c.act a)

variable {c : Catalog}

theorem WellFormed.next (h : c.WellFormed) (e : CatalogEvent) : (c.next e).WellFormed := by
  cases e with
  | asked number q => exact CatalogM.inquired_wellFormed.answer number q c h
  | consulted number q =>
    exact CatalogM.onEbuild?_wellFormed (fun r t => r.reply_wellFormed q) number c h
  | consultedInstalled number q =>
    exact CatalogM.undisturbed_wellFormed.installedReply? q number c h
  | indexed number => exact CatalogM.inquired_wellFormed.built number c h
  | selected number position =>
    exact (CatalogM.onProfiles?_wellFormed (fun _ _ => ProfileChain.select_unambiguous position)
      number).selection CatalogM.invalidateVirtuals_wellFormed (· == some true) (· == some true) c h
  | adopted number d =>
    exact (CatalogM.onProfiles?_wellFormed (fun _ _ => ProfileChain.adopt_unambiguous d)
      number).selection CatalogM.invalidateVirtuals_wellFormed Option.isSome id c h
  | selectedByArch number arch =>
    exact (CatalogM.onProfiles?_wellFormed (fun _ _ => ProfileChain.selectByArch_unambiguous arch)
      number).selection CatalogM.invalidateVirtuals_wellFormed Option.isSome id c h
  | invalidated number => exact h.invalidate number

theorem WellFormed.act (h : c.WellFormed) (a : CatalogAction) : (c.act a).WellFormed := by
  cases a with
  | happened e => exact h.next e
  | invalidatedAll => exact h.invalidateAll
  | regenerated number => exact CatalogM.regenerate_wellFormed number c h
  | edited t => exact h.of_eq rfl rfl
  | made kind keys => exact (CatalogM.make_on kind keys c).wellFormed h
  | created f format keys => exact (CatalogM.create_on f format keys c).wellFormed h
  | added f keys => exact CatalogM.addFromKeys_wellFormed f keys c h
  | registered importance number =>
    show (if number < c.repositories.length then ((CatalogM.register importance number).on c).2
      else c).WellFormed
    split
    · next hnumber => exact h.register hnumber importance
    · exact h
  | unregistered name => exact h.unregister name
  | givenUp => exact h.giveUp
  | addedTransport transport => exact h.of_eq rfl rfl
  | synced r => exact CatalogM.sync_wellFormed r c h
  | usedEapis eapis => exact h.of_eq rfl rfl
  | usedShuffle shuffle => exact h.of_eq rfl rfl

/-- Several actions, one after the other. -/
theorem Reached.foldl (h : Reached c) (actions : List CatalogAction) :
    Reached (actions.foldl act c) := by
  induction actions generalizing c with
  | nil => exact h
  | cons a actions ih => exact ih (h.acted a)

theorem Reached.wellFormed (h : Reached c) : c.WellFormed := by
  induction h with
  | start t => exact wellFormed_start t
  | acted a _ ih => exact ih.act a

end Catalog

end PackageCatalog
