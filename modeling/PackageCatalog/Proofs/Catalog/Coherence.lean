import PackageCatalog.Catalog.Factory
import PackageCatalog.Proofs.Catalog.Virtuals

/-!
# Whether declared virtuals follow the active profiles

The repository of virtuals remembers an index that was built from the profiles that were active
then.  Selecting a profile drops it.  Two things change which profile is active and do not drop it:
an invalidation of a source repository, which makes the default active again, and a selection that
is made on the profiles alone.  The virtuals follow the active profiles all along if and only if
each of these, when it happened, came before the index was built or left what is declared as it was:

    coherent all along ↔ every unguarded event is harmless                (virtuals_follow_iff)
-/

namespace PackageCatalog

/-! ## Histories -/

/-- What happens to the repositories of a catalogue whose files and registry stay as they are. -/
inductive CatalogEvent : Type 1 where
  /-- A question to any repository. -/
  | asked {α : Type} (number : Nat) (q : Question α)
  /-- A question that only source repositories answer. -/
  | consulted {α : Type} (number : Nat) (q : EbuildQuestion α)
  | consultedInstalled {α : Type} (number : Nat) (q : InstalledQuestion α)
  /-- A look at the index of a repository of virtuals. -/
  | indexed (number : Nat)
  | selected (number position : Nat)
  /-- A selection by a descriptor made by hand. -/
  | adopted (number : Nat) (d : ProfileDescriptor)
  | selectedByArch (number : Nat) (arch : String)
  | invalidated (number : Nat)

namespace Catalog

open CatalogM (Yields Keeps)

/-- The catalogue after an event, be it a failure or not. -/
def next (c : Catalog) : CatalogEvent → Catalog
  | .asked number q => ((CatalogM.answer number q).on c).2
  | .consulted number q => ((CatalogM.onEbuild? number (·.reply q)).on c).2
  | .consultedInstalled number q => ((CatalogM.onInstalled? number (·.reply q)).on c).2
  | .indexed number => ((CatalogM.virtualsMemo number).index.on c).2
  | .selected number position => ((CatalogM.selectProfile number position).on c).2
  | .adopted number d => ((CatalogM.adoptProfile number d).on c).2
  | .selectedByArch number arch => ((CatalogM.selectProfileByArch number arch).on c).2
  | .invalidated number => c.invalidate number

def after (c : Catalog) (history : List CatalogEvent) : Catalog := history.foldl next c

/-- The repository of virtuals answers as an index built now from the active profiles. -/
def Coherent (k : Nat) (c : Catalog) : Prop :=
  ∀ (α : Type) (q : Question α) (p : ProviderQuery α), q.provider? = some p →
    ((CatalogM.answer k q).on c).1 = p.answer c.builtIndex

/-- The event may change which profile is active, and the index of virtuals is not dropped. -/
def Unguarded (c : Catalog) : CatalogEvent → Prop
  | .consulted _ q => q.selects = true
  | .invalidated number => ∃ r memo, c.repositories[number]? = some (.ebuild r memo)
  | _ => False

/-- No index is remembered, or the event leaves what is declared as it is. -/
def Harmless (k : Nat) (c : Catalog) (e : CatalogEvent) : Prop :=
  c.repositories[k]? = some (.virtuals none) ∨ SameAnswers (c.next e).builtIndex c.builtIndex

/-! ## One event -/

/-- An index of virtuals that is remembered answers as one built now. -/
def UpToDate (k : Nat) (c : Catalog) : Prop :=
  ∀ x, c.repositories[k]? = some (.virtuals (some x)) → SameAnswers (.ok x) c.builtIndex

/-- The repository of virtuals is number `k`, and what the indexes of source repositories know is
right. -/
structure Ready (k : Nat) (c : Catalog) : Prop where
  fetched : c.fetch (Repository.name (.virtuals none)) = some k
  kind : ∃ memo, c.repositories[k]? = some (.virtuals memo)
  sound : ∀ (number : Nat) (r : EbuildRepository) (memo : EbuildMemo),
    c.repositories[number]? = some (.ebuild r memo) → r.index.Sound c.files memo.index

variable {k number : Nat} {c₀ c c' : Catalog}

theorem Ready.alive (h : Ready k c) : c.registry.isSome := by
  have hfetched := h.fetched
  unfold fetch find? registered at hfetched
  cases hr : c.registry with
  | none =>
    rw [hr] at hfetched
    cases hfetched
  | some list => rfl

theorem Ready.of_kept (h : Ready k c) (hkept : Kept c c') : Ready k c' where
  fetched := hkept.fetch_eq ▸ h.fetched
  kind := hkept.virtuals h.kind
  sound number r memo hr := hkept.files ▸ hkept.sound number r memo hr

theorem Ready.kept (h : Ready k c) : Kept c c := ⟨.refl c, h.sound⟩

theorem Ready.steady (h : Ready k c) (hupToDate : UpToDate k c) : Steady k c c :=
  ⟨h.kept, rfl, hupToDate⟩

/-! ## Steady catalogues are up to date -/

theorem Steady.source?_eq (h : Steady k c₀ c) : c.source? = c₀.source? := by
  funext g
  unfold source?
  by_cases h₀ : ∃ r memo, c₀.repositories[g.number]? = some (.ebuild r memo)
  · obtain ⟨r, memo₀, h₀⟩ := h₀
    obtain ⟨memo, hr, hcurrent⟩ := h.current h₀
    rw [h₀, hr, h.files]
    exact congrArg (fun active => some (⟨g.importance, r, active⟩ : Source)) hcurrent.profile
  · have hnone := h.toKept.not_ebuild fun r memo hr => h₀ ⟨r, memo, hr⟩
    split
    · next r memo hr => exact absurd hr (hnone r memo)
    · split
      · next r memo hr => exact absurd ⟨r, memo, hr⟩ h₀
      · rfl

theorem Steady.builtIndex_eq (h : Steady k c₀ c) : c.builtIndex = c₀.builtIndex := by
  unfold builtIndex declared sources
  rw [h.files, h.toKept.ranked_eq, h.source?_eq]

theorem Steady.upToDate_self (h : Steady k c₀ c) : UpToDate k c := by
  unfold UpToDate
  rw [h.builtIndex_eq]
  exact h.upToDate

theorem upToDate_of_none (h : c.repositories[k]? = some (.virtuals none)) : UpToDate k c := by
  intro x hx
  rw [h] at hx
  cases hx

theorem Ready.coherent_iff_upToDate (h : Ready k c) : Coherent k c ↔ UpToDate k c := by
  constructor
  · intro hcoherent x hx α q p hp
    rw [← hcoherent α q p hp, CatalogM.answer_eq hx rfl hp, CatalogM.index_on hx rfl]
    rfl
  · intro hupToDate α q p hp
    obtain ⟨memo, hmemo⟩ := h.kind
    rw [CatalogM.answer_eq hmemo rfl hp]
    exact (CatalogM.index_sameAnswers h.alive h.kind (h.steady hupToDate)).1 α q p hp

/-! ## Invalidations -/

theorem invalidate_eq {r : Repository} (h : c.repositories[number]? = some r) :
    c.invalidate number = CatalogM.worked c number r.invalidated c.warnings := by
  unfold invalidate CatalogM.worked
  rw [List.modify_eq_set_getElem?, h]
  rfl

theorem invalidate_eq_self (h : c.repositories[number]? = none) : c.invalidate number = c := by
  unfold invalidate
  rw [List.modify_eq_set_getElem?, h]
  rfl

theorem Ready.kept_invalidate (h : Ready k c) (number : Nat) : Kept c (c.invalidate number) := by
  cases hr : c.repositories[number]? with
  | none =>
    rw [invalidate_eq_self hr]
    exact h.kept
  | some r =>
    rw [invalidate_eq hr]
    refine h.kept.worked hr r.invalidated_invalidated (fun s memo hs => ?_) c.warnings
    cases r with
    | ebuild r' memo' =>
      cases hs
      exact Index.sound_empty
    | _ => cases hs

/-- An invalidation of a repository that is not of sources keeps the catalogue steady. -/
theorem Ready.steady_invalidate (h : Ready k c) (hupToDate : UpToDate k c)
    (hother : ∀ r memo, c.repositories[number]? ≠ some (.ebuild r memo)) :
    Steady k c (c.invalidate number) := by
  cases hr : c.repositories[number]? with
  | none =>
    rw [invalidate_eq_self hr]
    exact h.steady hupToDate
  | some r =>
    rw [invalidate_eq hr]
    refine (h.steady hupToDate).worked_other hr r.invalidated_invalidated ?_ ?_ c.warnings
    · rw [Repository.kind_invalidated]
      intro hkind
      cases r with
      | ebuild r' memo' => exact hother r' memo' hr
      | _ => cases hkind
    · rintro x - hx
      cases r <;> cases hx

theorem Ready.upToDate_invalidate (h : Ready k c) : UpToDate k (c.invalidate k) := by
  obtain ⟨memo, hmemo⟩ := h.kind
  refine upToDate_of_none ?_
  rw [invalidate_eq hmemo, getElem?_worked hmemo, if_pos rfl]
  rfl

/-! ## Selections -/

/-- A scan of the profiles of a source repository leaves its index alone. -/
theorem Ready.kept_onProfiles {α : Type} (h : Ready k c) (number : Nat)
    (s : EbuildRepository → Scan ChainMemo α) :
    Kept c ((CatalogM.onEbuild? number fun r => EbuildMemo.onProfiles (s r)).on c).2 := by
  rcases CatalogM.onEbuild?_on_cases number (fun r => EbuildMemo.onProfiles (s r)) c with
    ⟨r, memo, hr, hon⟩ | hon
  · rw [hon]
    refine h.kept.worked hr ?_ (fun s memo' hs => ?_) _
    · rfl
    · cases hs
      exact h.sound number r memo hr
  · rw [hon]
    exact h.kept

/-- If it leaves the active profile alone as well, the catalogue is steady. -/
theorem Ready.steady_onProfiles {α : Type} (h : Ready k c) (hupToDate : UpToDate k c)
    (s : EbuildRepository → Scan ChainMemo α)
    (hactive : ∀ r memo, c.repositories[number]? = some (.ebuild r memo) →
      r.profiles.activeIn c.files ((s r).on c.files ⟨memo.profiles, c.warnings⟩).2.memo =
        r.profiles.activeIn c.files memo.profiles) :
    Steady k c ((CatalogM.onEbuild? number fun r => EbuildMemo.onProfiles (s r)).on c).2 := by
  rcases CatalogM.onEbuild?_on_cases number (fun r => EbuildMemo.onProfiles (s r)) c with
    ⟨r, memo, hr, hon⟩ | hon
  · rw [hon]
    have hcurrent := (h.steady hupToDate).current_self hr
    refine (h.steady hupToDate).scanned hr hcurrent ?_ _
    exact ⟨hcurrent.index, hactive r memo hr⟩
  · rw [hon]
    exact h.steady hupToDate

/-- The result of a scan of the profiles of a source repository. -/
theorem onProfiles_fst {α : Type} {r : EbuildRepository} {memo : EbuildMemo}
    (hr : c.repositories[number]? = some (.ebuild r memo))
    (s : EbuildRepository → Scan ChainMemo α) :
    ((CatalogM.onEbuild? number fun r => EbuildMemo.onProfiles (s r)).on c).1 =
      ((s r).on c.files ⟨memo.profiles, c.warnings⟩).1.map some := by
  rw [CatalogM.onEbuild?_on_of_eq hr]
  rfl

theorem Ready.invalidateVirtuals_on (h : Ready k c) :
    CatalogM.invalidateVirtuals.on c = (.ok (), c.invalidate k) := by
  unfold CatalogM.invalidateVirtuals
  rw [CatalogM.on_modify, h.fetched]

theorem Kept.trans (h : Kept c₀ c) (h' : Kept c c') : Kept c₀ c' :=
  ⟨h.toFramed.trans h'.toFramed, fun number r memo hr => h.files ▸ h'.sound number r memo hr⟩

theorem Steady.kept_upToDate (h : Steady k c₀ c) : Kept c₀ c ∧ UpToDate k c :=
  ⟨h.toKept, h.upToDate_self⟩

/-- A selection drops the index of virtuals, and leaves the active profile alone where it does not.
-/
theorem Ready.selection {α β : Type} (h : Ready k c) (hupToDate : UpToDate k c) (number : Nat)
    (s : EbuildRepository → Scan ChainMemo α) (drops : Option α → Bool) (answer : Option α → β)
    (hactive : ∀ (r : EbuildRepository) (j : Journal ChainMemo),
      (∀ a, ((s r).on c.files j).1 = .ok a → drops (some a) = false) →
        r.profiles.activeIn c.files ((s r).on c.files j).2.memo =
          r.profiles.activeIn c.files j.memo) :
    let selected : CatalogM β := do
      let found ← CatalogM.onEbuild? number fun r => EbuildMemo.onProfiles (s r)
      if drops found then CatalogM.invalidateVirtuals
      return answer found
    Kept c (selected.on c).2 ∧ UpToDate k (selected.on c).2 := by
  intro selected
  have hkept := h.kept_onProfiles number s
  have hsteady (hstays : ∀ found, ((CatalogM.onEbuild? number fun r =>
      EbuildMemo.onProfiles (s r)).on c).1 = .ok found → drops found = false) :=
    (h.steady_onProfiles hupToDate s fun r memo hr => hactive r _ fun a ha => by
      refine hstays (some a) ?_
      rw [onProfiles_fst hr, ha]
      rfl).kept_upToDate
  cases hout : (CatalogM.onEbuild? number fun r => EbuildMemo.onProfiles (s r)).on c with
  | mk result c₁ =>
    rw [hout] at hkept hsteady
    cases result with
    | error e =>
      rw [show selected.on c = (.error e, c₁) from CatalogM.on_bind_of_error hout _]
      exact hsteady nofun
    | ok found =>
      rw [show selected.on c = (do
        if drops found then CatalogM.invalidateVirtuals
        return answer found : CatalogM β).on c₁ from CatalogM.on_bind_of_ok hout _]
      cases hdrops : drops found with
      | true =>
        have h₁ := h.of_kept hkept
        rw [if_pos rfl, CatalogM.on_bind_of_ok h₁.invalidateVirtuals_on]
        exact ⟨hkept.trans (h₁.kept_invalidate k), h₁.upToDate_invalidate⟩
      | false => exact hsteady fun found' hok => Except.ok.inj hok ▸ hdrops

/-! ## Events -/

/-- A guarded event leaves the virtuals up to date. -/
theorem Ready.next_of_guarded (h : Ready k c) (hupToDate : UpToDate k c) {e : CatalogEvent}
    (he : ¬ c.Unguarded e) : Kept c (c.next e) ∧ UpToDate k (c.next e) := by
  have hsteady := h.steady hupToDate
  have hinquired := CatalogM.inquired_steady h.alive h.kind
  cases e with
  | asked number q => exact (hinquired.answer number q c hsteady).kept_upToDate
  | consulted number q =>
    have hselects : q.selects = false := by simpa [Unguarded] using he
    exact (hinquired.reply? hselects number c hsteady).kept_upToDate
  | consultedInstalled number q =>
    exact (hinquired.installedReply? q number c hsteady).kept_upToDate
  | indexed number => exact (hinquired.built number c hsteady).kept_upToDate
  | selected number position =>
    refine h.selection hupToDate number (·.profiles.select position) (· == some true)
      (· == some true) fun r j hstays => ProfileChain.select_activeIn rfl fun htrue => ?_
    cases hstays true htrue
  | adopted number d =>
    refine h.selection hupToDate number (fun _ => ProfileChain.adopt d) Option.isSome id
      fun r j hstays => ?_
    cases hresult : ((ProfileChain.adopt d).on c.files j).1 with
    | ok a => cases hstays a hresult
    | error e => exact ProfileChain.adopt_activeIn (Prod.ext hresult rfl)
  | selectedByArch number arch =>
    refine h.selection hupToDate number (·.profiles.selectByArch arch) Option.isSome id
      fun r j hstays => ?_
    cases hresult : ((r.profiles.selectByArch arch).on c.files j).1 with
    | ok d => cases hstays d hresult
    | error e => exact ProfileChain.selectByArch_activeIn (Prod.ext hresult rfl)
  | invalidated number =>
    exact (h.steady_invalidate hupToDate fun r memo hr => he ⟨r, memo, hr⟩).kept_upToDate

/-- An unguarded event leaves the repository of virtuals as it is. -/
theorem Ready.next_of_unguarded (h : Ready k c) {e : CatalogEvent} (he : c.Unguarded e) :
    Kept c (c.next e) ∧ (c.next e).repositories[k]? = c.repositories[k]? := by
  obtain ⟨memo, hmemo⟩ := h.kind
  cases e with
  | consulted number q =>
    cases q with
    | profile q =>
      refine ⟨h.kept_onProfiles number fun r => r.profiles.answer q, ?_⟩
      show ((CatalogM.onEbuild? number fun r => r.reply (.profile q)).on c).2.repositories[k]? = _
      rcases CatalogM.onEbuild?_on_cases number (·.reply (.profile q)) c with
        ⟨r, memo', hr, hon⟩ | hon
      · rw [hon, getElem?_worked hr, if_neg]
        rintro rfl
        rw [hmemo] at hr
        cases hr
      · rw [hon]
    | _ => cases he
  | invalidated number =>
    obtain ⟨r, memo', hr⟩ := he
    refine ⟨h.kept_invalidate number, ?_⟩
    show (c.invalidate number).repositories[k]? = _
    rw [invalidate_eq hr, getElem?_worked hr, if_neg]
    rintro rfl
    rw [hmemo] at hr
    cases hr
  | _ => cases he

theorem Ready.upToDate_next_iff (h : Ready k c) (hupToDate : UpToDate k c) {e : CatalogEvent}
    (he : c.Unguarded e) : UpToDate k (c.next e) ↔ Harmless k c e := by
  obtain ⟨-, hsame⟩ := h.next_of_unguarded he
  obtain ⟨memo, hmemo⟩ := h.kind
  cases memo with
  | none => exact ⟨fun _ => .inl hmemo, fun _ => upToDate_of_none (hsame.trans hmemo)⟩
  | some x =>
    constructor
    · intro hnext
      exact .inr ((hnext x (hsame.trans hmemo)).symm.trans (hupToDate x hmemo))
    · rintro (hnone | hsameAnswers) y hy
      · rw [hmemo] at hnone
        cases hnone
      · rw [hsame, hmemo] at hy
        cases hy
        exact (hupToDate x hmemo).trans hsameAnswers.symm

theorem Ready.kept_next (h : Ready k c) (hupToDate : UpToDate k c) (e : CatalogEvent) :
    Kept c (c.next e) := by
  by_cases he : c.Unguarded e
  · exact (h.next_of_unguarded he).1
  · exact (h.next_of_guarded hupToDate he).1

/-- A repository of virtuals that is asked about a virtual remembers its index. -/
theorem Ready.remembered_asked {α : Type} (h : Ready k c) (hupToDate : UpToDate k c)
    {q : Question α} {p : ProviderQuery α} (hp : q.provider? = some p)
    (hvirtual : isVirtual p.category) {x : ProviderIndex} (hx : c.builtIndex = .ok x) :
    ∃ y, (c.next (.asked k q)).repositories[k]? = some (.virtuals (some y)) := by
  obtain ⟨memo, hmemo⟩ := h.kind
  obtain ⟨y, hy⟩ := CatalogM.index_remembered h.alive h.kind (h.steady hupToDate) hx
  refine ⟨y, ?_⟩
  show ((CatalogM.answer k q).on c).2.repositories[k]? = _
  rw [CatalogM.answer_on hmemo rfl hp, if_pos hvirtual]
  exact hy

/-! ## Coherence -/

/-- The first event, and then those after it. -/
theorem forall_after_cons_iff {P : Catalog → Prop} {e : CatalogEvent}
    {history : List CatalogEvent} :
    (∀ n, P (c.after ((e :: history).take n))) ↔
      P c ∧ ∀ n, P ((c.next e).after (history.take n)) := by
  refine ⟨fun hall => ⟨hall 0, fun n => hall (n + 1)⟩, fun hall n => ?_⟩
  cases n with
  | zero => exact hall.1
  | succ n => exact hall.2 n

/-- All unguarded events of a history are harmless when they happen. -/
def HarmlessAll (k : Nat) (c : Catalog) (history : List CatalogEvent) : Prop :=
  ∀ n e, history[n]? = some e → (c.after (history.take n)).Unguarded e →
    Harmless k (c.after (history.take n)) e

theorem harmlessAll_cons_iff {e : CatalogEvent} {history : List CatalogEvent} :
    HarmlessAll k c (e :: history) ↔
      (c.Unguarded e → Harmless k c e) ∧ HarmlessAll k (c.next e) history := by
  refine ⟨fun hall => ⟨hall 0 e rfl, fun n => hall (n + 1)⟩, fun hall n => ?_⟩
  cases n with
  | zero =>
    rintro e' he'
    cases he'
    exact hall.1
  | succ n => exact hall.2 n

theorem Ready.coherent_iff (h : Ready k c) (hupToDate : UpToDate k c)
    (history : List CatalogEvent) :
    (∀ n, Coherent k (c.after (history.take n))) ↔ HarmlessAll k c history := by
  induction history generalizing c with
  | nil =>
    refine ⟨fun _ n e he => ?_, fun _ n => ?_⟩
    · cases he
    · rw [List.take_nil]
      exact h.coherent_iff_upToDate.2 hupToDate
  | cons e history ih =>
    have hready := h.of_kept (h.kept_next hupToDate e)
    have hcoherent := h.coherent_iff_upToDate.2 hupToDate
    rw [forall_after_cons_iff, harmlessAll_cons_iff]
    by_cases he : c.Unguarded e
    · constructor
      · rintro ⟨-, hall⟩
        have hnext := hready.coherent_iff_upToDate.1 (hall 0)
        exact ⟨fun _ => (h.upToDate_next_iff hupToDate he).1 hnext, (ih hready hnext).1 hall⟩
      · rintro ⟨hharmless, hall⟩
        have hnext := (h.upToDate_next_iff hupToDate he).2 (hharmless he)
        exact ⟨hcoherent, (ih hready hnext).2 hall⟩
    · have hnext := (h.next_of_guarded hupToDate he).2
      rw [ih hready hnext]
      exact ⟨fun hall => ⟨fun he' => absurd he' he, hall.2⟩, fun hall => ⟨hcoherent, hall.2⟩⟩

/-- Nothing is remembered. -/
def Unused (c : Catalog) : Prop := ∀ r ∈ c.repositories, r.invalidated = r

theorem Unused.sound (h : c.Unused) (number : Nat) (r : EbuildRepository) (memo : EbuildMemo)
    (hr : c.repositories[number]? = some (.ebuild r memo)) : r.index.Sound c.files memo.index := by
  have hfresh := h _ (List.mem_of_getElem? hr)
  obtain rfl : r.freshMemo = memo := (Repository.ebuild.inj hfresh).2
  exact Index.sound_empty

theorem Unused.ready (h : c.Unused) (hfetched : c.fetch "virtuals" = some k)
    (hkind : ∃ memo, c.repositories[k]? = some (.virtuals memo)) : Ready k c :=
  ⟨hfetched, hkind, h.sound⟩

theorem Unused.upToDate (h : c.Unused) : UpToDate k c := by
  intro x hx
  cases h _ (List.mem_of_getElem? hx)

/-- The virtuals follow the active profiles all along if and only if whatever may change an active
profile, and does not drop the index of virtuals, happens before the index is built or leaves what
is declared as it is. -/
theorem virtuals_follow_iff (hunused : c.Unused) (hfetched : c.fetch "virtuals" = some k)
    (hkind : ∃ memo, c.repositories[k]? = some (.virtuals memo)) (history : List CatalogEvent) :
    (∀ n, Coherent k (c.after (history.take n))) ↔ HarmlessAll k c history :=
  (hunused.ready hfetched hkind).coherent_iff hunused.upToDate history

/-! ### A profile that is selected and given up -/

/-- The default profile declares nothing, and the profile `a` declares a virtual. -/
def editorTree : FileTree :=
  ⟨⟨[(["r"], .directory), (["r", "profiles"], .directory),
    (["r", "profiles", "categories"], .text "cat\n"),
    (["r", "profiles", "profiles.desc"], .text "x a stable\n"),
    (["r", "profiles", "a"], .directory),
    (["r", "profiles", "a", "virtuals"], .text "virtual/e cat/p\n"),
    (["r", "cat"], .directory), (["r", "cat", "p"], .directory),
    (["r", "cat", "p", "p-1.ebuild"], .text "")]⟩⟩

def editorRepository : EbuildRepository where
  name := "r"
  location := "/r"
  masterLocation := none
  transport := none
  targets := ""
  options := ""
  index := ⟨"r", "/r", .tree, ["/r/profiles"], ⟨.ebuild, none⟩⟩
  profiles := ⟨"r", ["/r/profiles"], [], .none⟩
  namesCache := ⟨"/r/.cache/names/r", "r"⟩

def editorCatalog : Catalog where
  files := editorTree
  repositories := [.ebuild editorRepository editorRepository.freshMemo, .virtuals none]
  registry := some [⟨0, 0⟩, ⟨0, 1⟩]

def editor : QualifiedName := ⟨virtualCategory, ⟨"e", by decide⟩⟩

/-- The profile is selected, the virtuals are asked for what it declares, and the repository is
invalidated. -/
def givenUp : List CatalogEvent :=
  [.selected 0 0, .asked 1 (.hasPackage editor), .invalidated 0]

theorem unused_editorCatalog : editorCatalog.Unused := by
  intro r hr
  simp only [editorCatalog, List.mem_cons, List.not_mem_nil, or_false] at hr
  rcases hr with rfl | rfl <;> rfl

theorem virtuals_follow_iff_editorCatalog :
    editorCatalog.Unused ∧ editorCatalog.fetch "virtuals" = some 1 ∧
    (∃ memo, editorCatalog.repositories[1]? = some (.virtuals memo)) ∧
    ((∀ n, Coherent 1 (editorCatalog.after (givenUp.take n))) ↔
      HarmlessAll 1 editorCatalog givenUp) :=
  ⟨unused_editorCatalog, by decide +kernel, ⟨none, rfl⟩,
    virtuals_follow_iff unused_editorCatalog (by decide +kernel) ⟨none, rfl⟩ givenUp⟩

/-- What an index says of the virtual. -/
def listsEditor (x : Except Error ProviderIndex) : Option Bool :=
  (x.map fun x => x.hasPackage editor).toOption

theorem builtIndex_editorCatalog (h : c.registry = editorCatalog.registry) :
    c.builtIndex = (declaredBy c.files ([⟨0, 0⟩, ⟨0, 1⟩].filterMap c.source?)).map .ofRanked := by
  have hranked : c.ranked = [⟨0, 0⟩, ⟨0, 1⟩] := by
    unfold ranked registered
    rw [h]
    exact List.mergeSort_of_pairwise (by decide)
  unfold builtIndex declared sources
  rw [hranked]

theorem exists_of_listsEditor {x : Except Error ProviderIndex} {found : Bool}
    (h : listsEditor x = some found) : ∃ y, x = .ok y := by
  cases x with
  | ok y => exact ⟨y, rfl⟩
  | error e => cases h

/-- The profile `a` declares the virtual. -/
theorem listsEditor_selected :
    listsEditor (editorCatalog.next (.selected 0 0)).builtIndex = some true := by
  rw [builtIndex_editorCatalog (by decide +kernel)]
  decide +kernel

theorem listsEditor_unused : listsEditor editorCatalog.builtIndex = some false := by
  rw [builtIndex_editorCatalog rfl]
  decide +kernel

/-- Once it is invalidated, the repository has its default profile again. -/
theorem builtIndex_invalidated (hkept : Kept editorCatalog c) :
    (c.next (.invalidated 0)).builtIndex = editorCatalog.builtIndex := by
  obtain ⟨memo', hvirtuals⟩ :=
    hkept.virtuals (show ∃ memo, editorCatalog.repositories[1]? = some (.virtuals memo) from
      ⟨none, rfl⟩)
  obtain ⟨memo, hr⟩ := hkept.ebuild
    (show editorCatalog.repositories[0]? = some (.ebuild editorRepository _) from rfl)
  obtain ⟨c', hc'⟩ : ∃ c', c' = CatalogM.worked c 0
      (.ebuild editorRepository editorRepository.freshMemo) c.warnings := ⟨_, rfl⟩
  have hfiles : c'.files = editorCatalog.files := by rw [hc']; exact hkept.files
  have hregistry : c'.registry = editorCatalog.registry := by rw [hc']; exact hkept.registry
  have hsource : c'.source? ⟨0, 0⟩ = editorCatalog.source? ⟨0, 0⟩ := by
    unfold source?
    rw [hfiles, hc', getElem?_worked hr, if_pos rfl]
    rfl
  have hother : c'.source? ⟨0, 1⟩ = editorCatalog.source? ⟨0, 1⟩ := by
    unfold source?
    rw [hc', getElem?_worked hr, if_neg (by decide), hvirtuals]
    rfl
  rw [show c.next (.invalidated 0) = c' from (invalidate_eq hr).trans hc'.symm,
    builtIndex_editorCatalog hregistry, builtIndex_editorCatalog rfl, hfiles,
    List.filterMap_congr fun g hg => ?_]
  simp only [List.mem_cons, List.not_mem_nil, or_false] at hg
  rcases hg with rfl | rfl
  · exact hsource
  · exact hother

/-- The virtual is still found when the profile that declares it is no longer active. -/
theorem not_follow_givenUp :
    editorCatalog.Unused ∧ editorCatalog.fetch "virtuals" = some 1 ∧
    ¬ ∀ n, Coherent 1 (editorCatalog.after (givenUp.take n)) := by
  have h : Ready 1 editorCatalog := unused_editorCatalog.ready (by decide +kernel) ⟨none, rfl⟩
  refine ⟨unused_editorCatalog, h.fetched, fun hall => ?_⟩
  obtain ⟨c₁, hc₁⟩ : ∃ c₁, c₁ = editorCatalog.next (.selected 0 0) := ⟨_, rfl⟩
  obtain ⟨c₂, hc₂⟩ : ∃ c₂, c₂ = c₁.next (.asked 1 (.hasPackage editor)) := ⟨_, rfl⟩
  have hkept₁ : Kept editorCatalog c₁ := hc₁ ▸ h.kept_next unused_editorCatalog.upToDate _
  have h₁ := h.of_kept hkept₁
  have hup₁ : UpToDate 1 c₁ := hc₁ ▸ (h.next_of_guarded unused_editorCatalog.upToDate id).2
  have hsteady : Steady 1 c₁ c₂ := by
    rw [hc₂]
    exact (CatalogM.inquired_steady h₁.alive h₁.kind).answer 1 _ c₁ (h₁.steady hup₁)
  have hkept₂ : Kept editorCatalog c₂ := hkept₁.trans hsteady.toKept
  have hlists₁ : listsEditor c₁.builtIndex = some true := hc₁ ▸ listsEditor_selected
  have hharmless : Harmless 1 c₂ (.invalidated 0) := by
    have hunguarded : c₂.Unguarded (.invalidated 0) := ⟨_, hkept₂.ebuild rfl⟩
    have hthird := (h.coherent_iff unused_editorCatalog.upToDate givenUp).1 hall 2 _ rfl
    rw [show editorCatalog.after (givenUp.take 2) = c₂ by rw [hc₂, hc₁]; rfl] at hthird
    exact hthird hunguarded
  rcases hharmless with hnone | hsame
  · obtain ⟨x, hx⟩ := exists_of_listsEditor hlists₁
    obtain ⟨y, hy⟩ := h₁.remembered_asked hup₁ (q := .hasPackage editor) rfl (by decide) hx
    rw [hc₂, hy] at hnone
    cases hnone
  · have hanswers := hsame Bool (.hasPackage editor) _ rfl
    rw [builtIndex_invalidated hkept₂, hsteady.builtIndex_eq] at hanswers
    have hlists := congrArg Except.toOption hanswers
    change listsEditor _ = listsEditor _ at hlists
    rw [listsEditor_unused, hlists₁] at hlists
    cases hlists

end Catalog

end PackageCatalog
