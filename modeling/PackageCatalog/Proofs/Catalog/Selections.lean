import PackageCatalog.Proofs.Catalog.Coherence
import PackageCatalog.Proofs.Repository.Selecting

/-!
# Selections take effect

A source repository is asked, profiles are selected, and the caller invalidates it, in any order, on
files that stay as they are.  `lastSelected x t history` is the profile that was selected last, if
nothing was invalidated since.  Selections take effect when every answer is the one of a repository
that remembers nothing of its profiles but that this one is selected:

    selections take effect ↔ no selection invalidates the repository itself
                             or what it selects is the default one
                                                                      (selections_takeEffect_iff)

A selection drops what the repository registered as `virtuals` remembers; nothing keeps a source
repository from having that name.
-/

namespace PackageCatalog

/-- What is called on a source repository. -/
inductive SourceCall : Type 1 where
  | asked {α : Type} (q : EbuildQuestion α) (stays : q.selects = false)
  | selected (s : Selection)
  | invalidated

namespace CatalogM

/-- Selects a profile in one of the three ways; tells whether there is one. -/
def selectBy (number : Nat) : Selection → CatalogM Bool
  | .position k => selectProfile number k
  | .descriptor d => Option.isSome <$> adoptProfile number d
  | .arch a => Option.isSome <$> selectProfileByArch number a

end CatalogM

namespace Catalog

open CatalogM (selectBy)
open ProfileChain (selecting)

variable {k : Nat} {c₀ c c' : Catalog} {r : EbuildRepository} {active : Except Error Profile}

/-- The catalogue after a call to its repository `k`, be it a failure or not. -/
def called (k : Nat) (c : Catalog) : SourceCall → Catalog
  | .asked q _ => ((CatalogM.onEbuild? k (·.reply q)).on c).2
  | .selected s => ((selectBy k s).on c).2
  | .invalidated => c.invalidate k

def calls (k : Nat) (c : Catalog) (history : List SourceCall) : Catalog :=
  history.foldl (called k) c

/-- The answer of a source repository. -/
def told {α : Type} (k : Nat) (c : Catalog) (q : EbuildQuestion α) : Except Error (Option α) :=
  ((CatalogM.onEbuild? k (·.reply q)).on c).1

/-- The profile that is selected after a call. -/
def selectedAfter (x : ProfileChain) (t : FileTree) (p : Option Profile) :
    SourceCall → Option Profile
  | .asked .. => p
  | .selected s =>
    match s.profileIn x t with
    | .ok (some found) => some found
    | _ => p
  | .invalidated => none

/-- The profile of the last selection that found one, if nothing was invalidated since. -/
def lastSelected (x : ProfileChain) (t : FileTree) (history : List SourceCall) : Option Profile :=
  history.foldl (selectedAfter x t) none

/-- Every answer is the one that is given where nothing is remembered of the profiles but that this
one is selected, or the default one. -/
def Follows (k : Nat) (r : EbuildRepository) (p : Option Profile) (c : Catalog) : Prop :=
  ∃ memo, c.repositories[k]? = some (.ebuild r memo) ∧
    ∀ (α : Type) (q : EbuildQuestion α), q.selects = false → told k c q =
      ((r.reply q).on c.files ⟨{ memo with profiles := selecting p }, []⟩).1.map some

/-- Selections take effect, and those that fail leave no trace. -/
structure TakeEffect (k : Nat) (r : EbuildRepository) (c : Catalog) (history : List SourceCall) :
    Prop where
  follow : ∀ n, Follows k r (lastSelected r.profiles c.files (history.take n))
    (c.calls k (history.take n))
  /-- A selection is reported to succeed exactly where it finds a profile. -/
  report : ∀ n s, ((selectBy k s).on (c.calls k (history.take n))).1 =
    (s.profileIn r.profiles c.files).map Option.isSome
  /-- Without a selection that did not succeed every later answer is the same. -/
  leaveNoTrace : ∀ before s after, history = before ++ .selected s :: after →
    ((selectBy k s).on (c.calls k before)).1 ≠ .ok true →
    ∀ (α : Type) (q : EbuildQuestion α), q.selects = false →
      told k (c.calls k history) q = told k (c.calls k (before ++ after)) q

/-! ## Calls -/

theorem getElem?_invalidate (c : Catalog) (m : Nat) :
    (c.invalidate m).repositories[k]? =
      (fun r => if m = k then r.invalidated else r) <$> c.repositories[k]? :=
  List.getElem?_modify ..

theorem Framed.invalidate (h : Framed c₀ c) (m : Nat) : Framed c₀ (c.invalidate m) := by
  cases hr : c.repositories[m]? with
  | none => exact (invalidate_eq_self hr).symm ▸ h
  | some r =>
    rw [invalidate_eq hr]
    exact h.worked hr r.invalidated_invalidated _

/-- What a repository remembers after a selection: it forgets everything if one that succeeds is the
end of what the repository of virtuals remembers, and it is registered as that. -/
def memoAfter (k : Nat) (r : EbuildRepository) (c : Catalog) (memo : EbuildMemo) :
    Except Error Bool → EbuildMemo
  | .ok true => if c.fetch "virtuals" = some k then r.freshMemo else memo
  | _ => memo

theorem Framed.invalidateVirtuals (h : Framed c₀ c) {memo : EbuildMemo}
    (hr : c.repositories[k]? = some (.ebuild r memo)) :
    ∃ c', CatalogM.invalidateVirtuals.on c = (.ok (), c') ∧ Framed c₀ c' ∧
      c'.repositories[k]? = some (.ebuild r (memoAfter k r c₀ memo (.ok true))) := by
  unfold CatalogM.invalidateVirtuals memoAfter
  rw [CatalogM.on_modify, show Repository.name (.virtuals none) = "virtuals" from rfl, h.fetch_eq]
  refine ⟨_, rfl, ?_⟩
  cases hfetch : c₀.fetch "virtuals" with
  | none => exact ⟨h, by simpa using hr⟩
  | some m =>
    refine ⟨h.invalidate m, ?_⟩
    dsimp only
    rw [getElem?_invalidate, hr]
    by_cases hm : m = k
    · rw [if_pos (congrArg some hm)]
      exact congrArg some (if_pos hm)
    · rw [if_neg fun heq => hm (Option.some_inj.1 heq)]
      exact congrArg some (if_neg hm)

/-- Work on the profiles, after which the virtuals are dropped if it succeeded. -/
theorem Framed.selection_on {α β : Type} (h : Framed c₀ c) {memo : EbuildMemo}
    (hr : c.repositories[k]? = some (.ebuild r memo)) (s : EbuildRepository → Scan ChainMemo α)
    (drops : Option α → Bool) (answer : Option α → β) {result : Except Error α}
    {j : Journal ChainMemo} (hs : (s r).on c.files ⟨memo.profiles, c.warnings⟩ = (result, j)) :
    ∃ c', (do
        let found ← CatalogM.onEbuild? k fun r => EbuildMemo.onProfiles (s r)
        if drops found then CatalogM.invalidateVirtuals
        return answer found : CatalogM β).on c = (result.map fun a => answer (some a), c') ∧
      Framed c₀ c' ∧ c'.repositories[k]? = some (.ebuild r
        (memoAfter k r c₀ { memo with profiles := j.memo }
          (result.map fun a => drops (some a)))) := by
  have hon := CatalogM.onEbuild?_on_of_eq hr fun r => EbuildMemo.onProfiles (s r)
  unfold EbuildMemo.onProfiles at hon ⊢
  rw [Scan.on_zoom, hs] at hon
  obtain ⟨c₁, hc₁⟩ : ∃ c₁, c₁ =
    CatalogM.worked c k (.ebuild r { memo with profiles := j.memo }) j.warnings := ⟨_, rfl⟩
  have hframed : Framed c₀ c₁ := by
    rw [hc₁]
    refine h.worked hr ?_ _
    rfl
  have hr₁ : c₁.repositories[k]? = some (.ebuild r { memo with profiles := j.memo }) := by
    rw [hc₁, getElem?_worked hr, if_pos rfl]
  dsimp only at hon
  rw [← hc₁] at hon
  cases result with
  | error e => exact ⟨c₁, CatalogM.on_bind_of_error hon _, hframed, hr₁⟩
  | ok a =>
    rw [CatalogM.on_bind_of_ok hon]
    dsimp only [Except.map]
    cases drops (some a) with
    | false => exact ⟨c₁, rfl, hframed, hr₁⟩
    | true =>
      obtain ⟨c₂, hc₂, hframed₂, hr₂⟩ := hframed.invalidateVirtuals hr₁
      rw [if_pos rfl, CatalogM.on_bind_of_ok hc₂]
      exact ⟨c₂, rfl, hframed₂, hr₂⟩

/-- A selection that finds something succeeds. -/
theorem Framed.optional_on {α : Type} (h : Framed c₀ c) {memo : EbuildMemo}
    (hr : c.repositories[k]? = some (.ebuild r memo)) (s : EbuildRepository → Scan ChainMemo α)
    {result : Except Error α} {found : Except Error Profile} {j : Journal ChainMemo}
    (hs : (s r).on c.files ⟨memo.profiles, c.warnings⟩ = (result, j))
    (hfound : result.map (fun _ => ()) = found.map fun _ => ()) :
    ∃ c', (Option.isSome <$> (do
        let found ← CatalogM.onEbuild? k fun r => EbuildMemo.onProfiles (s r)
        if found.isSome then CatalogM.invalidateVirtuals
        return found : CatalogM (Option α))).on c = ((some <$> found).map Option.isSome, c') ∧
      Framed c₀ c' ∧ c'.repositories[k]? = some (.ebuild r
        (memoAfter k r c₀ { memo with profiles := j.memo }
          ((some <$> found).map Option.isSome))) := by
  obtain ⟨c', hc', hframed, hr'⟩ := h.selection_on hr s Option.isSome id hs
  have hsome : result.map (fun _ => true) = (some <$> found).map Option.isSome := by
    cases result <;> cases found <;> cases hfound <;> rfl
  refine ⟨c', ?_, hframed, hsome ▸ hr'⟩
  refine (CatalogM.on_map Option.isSome _ c).trans ?_
  dsimp only [id] at hc'
  rw [hc', ← hsome]
  cases result <;> rfl

/-- A selection finds what the files say, and leaves the index and the names cache alone. -/
theorem Framed.selectBy_on (h : Framed c₀ c) {memo : EbuildMemo}
    (hr : c.repositories[k]? = some (.ebuild r memo)) (hmemo : r.Settled c₀.files active memo)
    (s : Selection) :
    ∃ c' memo', (selectBy k s).on c =
        ((s.profileIn r.profiles c₀.files).map Option.isSome, c') ∧ Framed c₀ c' ∧
      c'.repositories[k]? = some (.ebuild r
        (memoAfter k r c₀ memo' ((s.profileIn r.profiles c₀.files).map Option.isSome))) ∧
      memo'.index = memo.index ∧
      r.Settled c₀.files (Selection.activeAfter active (s.profileIn r.profiles c₀.files))
        memo' := by
  have hprofiles : r.profiles.Recalls c₀.files active
      (⟨memo.profiles, c.warnings⟩ : Journal ChainMemo).memo := hmemo.profiles
  cases s with
  | position m =>
    obtain ⟨j, hj, hchain⟩ := Selection.select_on m hprofiles
    rw [← h.files] at hj
    obtain ⟨c', hc', hframed, hr'⟩ := h.selection_on hr (·.profiles.select m) (· == some true)
      (· == some true) hj
    have hfound : ((r.profiles.profileAtIn c₀.files m).map Option.isSome).map
        (fun found => some found == some true) =
          (r.profiles.profileAtIn c₀.files m).map Option.isSome := by
      cases r.profiles.profileAtIn c₀.files m with
      | error e => rfl
      | ok found => cases found <;> rfl
    rw [h.files, hfound] at hc' hr'
    exact ⟨c', _, hc', hframed, hr', rfl, hchain, hmemo.names⟩
  | descriptor d =>
    obtain ⟨j, hj, hchain⟩ := Selection.adopt_on d hprofiles
    rw [← h.files] at hj
    obtain ⟨c', hc', hframed, hr'⟩ := h.optional_on hr (fun _ => ProfileChain.adopt d) hj
      (show _ = (ProfileChain.loadIn c₀.files d).map fun _ => () by
        rw [h.files]
        cases ProfileChain.loadIn c₀.files d <;> rfl)
    exact ⟨c', _, hc', hframed, hr', rfl, hchain, hmemo.names⟩
  | arch a =>
    obtain ⟨result, j, hj, hfound, hchain⟩ := Selection.selectByArch_on a hprofiles
    rw [← h.files] at hj
    obtain ⟨c', hc', hframed, hr'⟩ := h.optional_on hr (·.profiles.selectByArch a) hj hfound
    exact ⟨c', _, hc', hframed, hr', rfl, hchain, hmemo.names⟩

/-! ## Catalogues side by side -/

/-- Two catalogues that differ only in what is remembered, where no question tells the two
repositories `k` apart. -/
structure Paired (k : Nat) (r : EbuildRepository) (c₀ : Catalog) (active : Except Error Profile)
    (c c' : Catalog) : Prop where
  left : Framed c₀ c
  right : Framed c₀ c'
  memos : ∃ memo memo', c.repositories[k]? = some (.ebuild r memo) ∧
    c'.repositories[k]? = some (.ebuild r memo') ∧ r.Twins c₀.files active memo memo'

/-- The default profile is active where nothing is remembered. -/
def defaultIn (r : EbuildRepository) (c : Catalog) : Except Error Profile :=
  r.profiles.activeIn c.files (selecting none)

theorem paired_fresh (hr : c.repositories[k]? = some (.ebuild r r.freshMemo)) :
    Paired k r c (defaultIn r c) c c :=
  ⟨.refl c, .refl c, _, _, hr, hr,
    EbuildRepository.settled_freshMemo.twins EbuildRepository.settled_freshMemo rfl⟩

/-- The profile that is active after a call. -/
def activeCalled (k : Nat) (r : EbuildRepository) (c : Catalog) (active : Except Error Profile) :
    SourceCall → Except Error Profile
  | .asked .. => active
  | .selected s =>
    match s.profileIn r.profiles c.files with
    | .ok (some p) => if c.fetch "virtuals" = some k then defaultIn r c else .ok p
    | _ => active
  | .invalidated => defaultIn r c

theorem Paired.told_eq (h : Paired k r c₀ active c c') {α : Type} {q : EbuildQuestion α}
    (stays : q.selects = false) : told k c q = told k c' q := by
  obtain ⟨memo, memo', hr, hr', htwins⟩ := h.memos
  unfold told
  rw [CatalogM.onEbuild?_on_of_eq hr, CatalogM.onEbuild?_on_of_eq hr', h.left.files,
    h.right.files]
  exact congrArg (Except.map some) (EbuildRepository.reply_agrees stays _ _ htwins).1

theorem Paired.asked (h : Paired k r c₀ active c c') {α : Type} {q : EbuildQuestion α}
    (stays : q.selects = false) :
    Paired k r c₀ active (c.called k (.asked q stays)) (c'.called k (.asked q stays)) := by
  obtain ⟨memo, memo', hr, hr', htwins⟩ := h.memos
  have hagree := (EbuildRepository.reply_agrees stays ⟨memo, c.warnings⟩ ⟨memo', c'.warnings⟩
    htwins).2
  show Paired k r c₀ active ((CatalogM.onEbuild? k (·.reply q)).on c).2
    ((CatalogM.onEbuild? k (·.reply q)).on c').2
  rw [CatalogM.onEbuild?_on_of_eq hr, CatalogM.onEbuild?_on_of_eq hr', h.left.files, h.right.files]
  refine ⟨?_, ?_, _, _, (getElem?_worked hr _ k).trans (if_pos rfl),
    (getElem?_worked hr' _ k).trans (if_pos rfl), hagree⟩
  · refine h.left.worked hr ?_ _
    rfl
  · refine h.right.worked hr' ?_ _
    rfl

theorem Paired.invalidated (h : Paired k r c₀ active c c') :
    Paired k r c₀ (defaultIn r c₀) (c.invalidate k) (c'.invalidate k) := by
  obtain ⟨memo, memo', hr, hr', -⟩ := h.memos
  refine ⟨h.left.invalidate k, h.right.invalidate k, r.freshMemo, r.freshMemo, ?_, ?_,
    EbuildRepository.settled_freshMemo.twins EbuildRepository.settled_freshMemo rfl⟩
  · rw [getElem?_invalidate, hr]
    exact congrArg some (if_pos rfl)
  · rw [getElem?_invalidate, hr']
    exact congrArg some (if_pos rfl)

theorem Paired.selected (h : Paired k r c₀ active c c') (s : Selection) :
    Paired k r c₀ (activeCalled k r c₀ active (.selected s)) (c.called k (.selected s))
      (c'.called k (.selected s)) := by
  obtain ⟨memo, memo', hr, hr', htwins⟩ := h.memos
  obtain ⟨d, n, hd, hframed, hr, hindex, hsettled⟩ := h.left.selectBy_on hr htwins.left s
  obtain ⟨d', n', hd', hframed', hr', hindex', hsettled'⟩ :=
    h.right.selectBy_on hr' htwins.right s
  have hsame : Index.KnowsAlike n.index n'.index := by
    rw [hindex, hindex']
    exact htwins.index
  show Paired k r c₀ _ ((selectBy k s).on c).2 ((selectBy k s).on c').2
  rw [hd, hd']
  refine ⟨hframed, hframed', _, _, hr, hr', ?_⟩
  unfold activeCalled memoAfter
  dsimp only
  cases hfound : s.profileIn r.profiles c₀.files with
  | error e =>
    rw [hfound] at hsettled hsettled'
    exact ⟨hsame, hsettled, hsettled'⟩
  | ok found =>
    rw [hfound] at hsettled hsettled'
    cases found with
    | none => exact ⟨hsame, hsettled, hsettled'⟩
    | some p =>
      dsimp only [Except.map, Option.isSome_some]
      by_cases hfetch : c₀.fetch "virtuals" = some k
      · simp only [if_pos hfetch]
        exact EbuildRepository.settled_freshMemo.twins EbuildRepository.settled_freshMemo rfl
      · simp only [if_neg hfetch]
        exact ⟨hsame, hsettled, hsettled'⟩

theorem Paired.called (h : Paired k r c₀ active c c') (call : SourceCall) :
    Paired k r c₀ (activeCalled k r c₀ active call) (c.called k call) (c'.called k call) := by
  cases call with
  | asked q stays => exact h.asked stays
  | selected s => exact h.selected s
  | invalidated => exact h.invalidated

theorem Paired.calls (h : Paired k r c₀ active c c') (history : List SourceCall) :
    Paired k r c₀ (history.foldl (activeCalled k r c₀) active) (c.calls k history)
      (c'.calls k history) := by
  induction history generalizing active c c' with
  | nil => exact h
  | cons call history ih => exact ih (h.called call)

/-! ## Selections take effect -/

/-- A selection that finds no profile is as if it had not been made. -/
theorem Paired.failed (h : Paired k r c₀ active c c) {s : Selection}
    (hs : ((selectBy k s).on c).1 ≠ .ok true) :
    Paired k r c₀ active (c.called k (.selected s)) c := by
  obtain ⟨memo, -, hr, -, ⟨-, hmemo, -⟩⟩ := h.memos
  obtain ⟨d, n, hd, hframed, hr', hindex, hsettled⟩ := h.left.selectBy_on hr hmemo s
  rw [hd] at hs
  show Paired k r c₀ active ((selectBy k s).on c).2 c
  rw [hd]
  refine ⟨hframed, h.right, n, memo, ?_, hr, ?_⟩
  · rw [hr']
    unfold memoAfter
    split
    · next hfound => exact absurd hfound hs
    · rfl
  · cases hfound : s.profileIn r.profiles c₀.files with
    | error e =>
      rw [hfound] at hsettled
      exact hsettled.twins hmemo hindex
    | ok found =>
      rw [hfound] at hs hsettled
      cases found with
      | none => exact hsettled.twins hmemo hindex
      | some p => exact absurd rfl hs

theorem Paired.told_active (h : Paired k r c₀ active c c) :
    told k c (.profile .active) = active.map some := by
  obtain ⟨memo, -, hr, -, ⟨-, hmemo, -⟩⟩ := h.memos
  unfold told
  rw [CatalogM.onEbuild?_on_of_eq hr, h.left.files]
  exact congrArg (Except.map some)
    (ProfileChain.profile_recalls ⟨memo.profiles, c.warnings⟩ hmemo.profiles).1

/-- A repository follows a profile exactly if it is active. -/
theorem Paired.follows_iff (h : Paired k r c₀ active c c) (p : Option Profile) :
    Follows k r p c ↔ active = r.profiles.activeIn c₀.files (selecting p) := by
  constructor
  · rintro ⟨memo, -, hfollows⟩
    have hactive := hfollows Profile (.profile .active) rfl
    have hselected : ((r.reply (.profile .active)).on c.files
        ⟨{ memo with profiles := selecting p }, []⟩).1 =
          r.profiles.activeIn c₀.files (selecting p) :=
      h.left.files ▸ (ProfileChain.profile_recalls ⟨selecting p, []⟩
        (ProfileChain.recalls_selecting p)).1
    rw [h.told_active, hselected] at hactive
    cases active <;> cases hp : r.profiles.activeIn c₀.files (selecting p) <;>
      rw [hp] at hactive <;> cases hactive <;> rfl
  · intro hp
    obtain ⟨memo, -, hr, -, ⟨-, hmemo, -⟩⟩ := h.memos
    refine ⟨memo, hr, fun α q stays => ?_⟩
    unfold told
    rw [CatalogM.onEbuild?_on_of_eq hr, h.left.files]
    exact congrArg (Except.map some) (EbuildRepository.reply_agrees stays ⟨memo, c.warnings⟩ ⟨_, []⟩
      (hmemo.twins (hmemo.selecting hp.symm) rfl)).1

/-- No selection of a profile other than the default one invalidates the repository itself. -/
def Shielded (k : Nat) (r : EbuildRepository) (c : Catalog) (history : List SourceCall) : Prop :=
  c.fetch "virtuals" = some k → ∀ s p, .selected s ∈ history →
    s.profileIn r.profiles c.files = .ok (some p) → defaultIn r c = .ok p

/-- Where every selection is shielded, the profile that was selected last is the active one. -/
theorem activeCalled_eq {call : SourceCall} (h : Shielded k r c [call]) {p : Option Profile} :
    activeCalled k r c (r.profiles.activeIn c.files (selecting p)) call =
      r.profiles.activeIn c.files (selecting (selectedAfter r.profiles c.files p call)) := by
  cases call with
  | asked q stays => rfl
  | invalidated => rfl
  | selected s =>
    unfold activeCalled selectedAfter
    dsimp only
    cases hfound : s.profileIn r.profiles c.files with
    | error e => rfl
    | ok found =>
      cases found with
      | none => rfl
      | some q =>
        dsimp only
        split
        · next hfetch => exact h hfetch s q List.mem_cons_self hfound
        · rfl

theorem foldl_activeCalled {history : List SourceCall} (h : Shielded k r c history)
    (p : Option Profile) :
    history.foldl (activeCalled k r c) (r.profiles.activeIn c.files (selecting p)) =
      r.profiles.activeIn c.files
        (selecting (history.foldl (selectedAfter r.profiles c.files) p)) := by
  induction history generalizing p with
  | nil => rfl
  | cons call history ih =>
    rw [List.foldl_cons, List.foldl_cons, activeCalled_eq fun hfetch s q hs =>
      h hfetch s q (List.mem_cons.2 (.inl (List.mem_singleton.1 hs)))]
    exact ih (fun hfetch s q hs => h hfetch s q (List.mem_cons_of_mem _ hs)) _

/-- Where selections take effect, the profile that was selected last is the active one. -/
theorem TakeEffect.active_eq (hr : c.repositories[k]? = some (.ebuild r r.freshMemo))
    {history : List SourceCall} (h : TakeEffect k r c history) (n : Nat) :
    (history.take n).foldl (activeCalled k r c) (defaultIn r c) = r.profiles.activeIn c.files
      (selecting (lastSelected r.profiles c.files (history.take n))) :=
  (((paired_fresh hr).calls _).follows_iff _).1 (h.follow n)

/-- Selections take effect if and only if none of them, by which another profile than the default
one is selected, invalidates the repository itself, which it does where the repository is registered
as that of virtuals. -/
theorem selections_takeEffect_iff (hr : c.repositories[k]? = some (.ebuild r r.freshMemo))
    (history : List SourceCall) : TakeEffect k r c history ↔ Shielded k r c history := by
  constructor
  · intro h hfetch s p hs hp
    obtain ⟨n, hn, hs⟩ := List.mem_iff_getElem.1 hs
    have hactive := h.active_eq hr (n + 1)
    rw [List.take_succ_eq_append_getElem hn, hs] at hactive
    simp only [lastSelected, List.foldl_append, List.foldl_cons, List.foldl_nil, selectedAfter,
      activeCalled, hp, if_pos hfetch] at hactive
    exact hactive
  · intro h
    have hpaired (calls : List SourceCall) := (paired_fresh hr).calls calls
    refine ⟨fun n => ?_, fun n s => ?_, fun before s after hhistory hfailed α q stays => ?_⟩
    · refine ((hpaired _).follows_iff _).2 (foldl_activeCalled ?_ none)
      exact fun hfetch s p hs => h hfetch s p (List.mem_of_mem_take hs)
    · obtain ⟨memo, -, hr', -, ⟨-, hmemo, -⟩⟩ := (hpaired (history.take n)).memos
      obtain ⟨d, -, hd, -⟩ := (hpaired (history.take n)).left.selectBy_on hr' hmemo s
      rw [hd]
    · have hbeside := ((hpaired before).failed hfailed).calls after
      rw [hhistory]
      unfold calls at hbeside ⊢
      rw [List.foldl_append, List.foldl_append]
      exact hbeside.told_eq stays

/-- The default profile does not set the variable, and the profile `a` does. -/
def settingTree : FileTree :=
  ⟨⟨[(["r"], .directory), (["r", "profiles"], .directory),
    (["r", "profiles", "profiles.desc"], .text "x a stable\n"),
    (["r", "profiles", "a"], .directory),
    (["r", "profiles", "a", "make.defaults"], .text "VAR=chosen\n")]⟩⟩

/-- A source repository that has the name of the repository of virtuals. -/
def virtualsRepository : EbuildRepository where
  name := "virtuals"
  location := "/r"
  masterLocation := none
  transport := none
  targets := ""
  options := ""
  index := ⟨"virtuals", "/r", .tree, ["/r/profiles"], ⟨.ebuild, none⟩⟩
  profiles := ⟨"virtuals", ["/r/profiles"], [], .none⟩
  namesCache := ⟨"/r/.cache/names/virtuals", "virtuals"⟩

def settingCatalog : Catalog where
  files := settingTree
  repositories := [.ebuild virtualsRepository virtualsRepository.freshMemo]
  registry := some [⟨0, 0⟩]

theorem selections_takeEffect_iff_settingCatalog :
    settingCatalog.repositories[0]? =
      some (.ebuild virtualsRepository virtualsRepository.freshMemo) ∧
    (TakeEffect 0 virtualsRepository settingCatalog [.selected (.position 0)] ↔
      Shielded 0 virtualsRepository settingCatalog [.selected (.position 0)]) :=
  ⟨rfl, selections_takeEffect_iff rfl [.selected (.position 0)]⟩

/-- What a profile sets the variable to. -/
def settingOf (p : Except Error Profile) : Option String :=
  (p.map (·.value "VAR")).toOption

/-- The selection succeeds and invalidates the repository, so that its default profile is active
again. -/
theorem not_takeEffect_settingCatalog :
    settingCatalog.repositories[0]? =
      some (.ebuild virtualsRepository virtualsRepository.freshMemo) ∧
    ¬ TakeEffect 0 virtualsRepository settingCatalog [.selected (.position 0)] := by
  refine ⟨rfl, fun h => ?_⟩
  have hactive := congrArg settingOf (h.active_eq rfl 1)
  have hdefault : settingOf (([.selected (.position 0)] : List SourceCall).foldl
      (activeCalled 0 virtualsRepository settingCatalog)
      (defaultIn virtualsRepository settingCatalog)) = some "" := by decide +kernel
  have hselected : settingOf (virtualsRepository.profiles.activeIn settingCatalog.files
      (selecting (lastSelected virtualsRepository.profiles settingCatalog.files
        [.selected (.position 0)]))) = some "chosen" := by decide +kernel
  have htake : ([.selected (.position 0)] : List SourceCall).take 1 =
    [.selected (.position 0)] := rfl
  rw [htake, hdefault, hselected] at hactive
  exact absurd hactive (by decide)

end Catalog

end PackageCatalog
