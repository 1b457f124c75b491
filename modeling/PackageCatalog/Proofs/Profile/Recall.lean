import PackageCatalog.Proofs.Repository.Declaring

/-!
# What a chain of profiles recalls

On one tree a chain answers every question by the files and by the profile that is active, however
much of the rest it remembers.  `x.Recalls t active memo` says that what is remembered is what would
be read again, and that `active` is the active profile:

    two memos of x.Recalls t active → every question has the same answer from both (answer_agrees)
    a selection leaves x.Recalls t active', where active' is the profile it finds, if it finds one
                                                     (select_on, adopt_on, selectByArch_on)
-/

namespace PackageCatalog

open Scan (Agrees IsReader Keeps Reads ReadsOnce Yields)

namespace ProfileChain

variable {x : ProfileChain} {t : FileTree} {active : Except Error Profile} {memo : ChainMemo}

/-! ## On one tree -/

/-- The available profiles in the files. -/
def availableIn (x : ProfileChain) (t : FileTree) : Except Error (List ProfileDescriptor) :=
  x.scanAvailable.found t

/-- The profile of a descriptor in the files. -/
def loadIn (t : FileTree) (d : ProfileDescriptor) : Except Error Profile :=
  (Profile.load [d.path] : Scan ChainMemo Profile).found t

/-- The profile of the descriptor at a position in the files, if there is such a descriptor. -/
def profileAtIn (x : ProfileChain) (t : FileTree) (k : Nat) : Except Error (Option Profile) := do
  match (← x.availableIn t)[k]? with
  | none => return none
  | some d => return some (← loadIn t d)

/-- The profile for an architecture in the files. -/
def byArchIn (x : ProfileChain) (t : FileTree) (arch : String) : Except Error Profile := do
  let list ← x.availableIn t
  match (choose list arch).bind (list[·]?) with
  | none => throw (.configuration (.noProfileFor arch))
  | some d => loadIn t d

theorem profileAtIn_of_ok {list : List ProfileDescriptor} (h : x.availableIn t = .ok list)
    (k : Nat) : x.profileAtIn t k =
      match list[k]? with
      | none => .ok none
      | some d => some <$> loadIn t d := by
  unfold profileAtIn
  rw [h]
  show (match list[k]? with
    | none => pure none
    | some d => do return some (← loadIn t d) : Except Error (Option Profile)) = _
  cases list[k]? with
  | none => rfl
  | some d => exact bind_pure_comp _ _

theorem byArchIn_of_ok {list : List ProfileDescriptor} (h : x.availableIn t = .ok list)
    (arch : String) : x.byArchIn t arch =
      match (choose list arch).bind (list[·]?) with
      | none => .error (.configuration (.noProfileFor arch))
      | some d => loadIn t d := by
  unfold byArchIn
  rw [h]
  rfl

/-- What is remembered, the active profile apart, is what would be read. -/
structure Faithful (x : ProfileChain) (t : FileTree) (memo : ChainMemo) : Prop where
  available : ∀ list, memo.available = some list →
    x.availableIn t = .ok (list.map Prod.fst) ∧ ∀ d p, (d, some p) ∈ list → loadIn t d = .ok p
  masks : ∀ masks, memo.repositoryMasks = some masks → x.needMasks.found t = .ok masks
  archFlags : ∀ flags, memo.archFlags = some flags → x.archFlags.found t = .ok flags
  mirrors : ∀ mirrors, memo.mirrors = some mirrors → x.needMirrors.found t = .ok mirrors

/-- What is remembered is what would be read, and this profile is active. -/
structure Recalls (x : ProfileChain) (t : FileTree) (active : Except Error Profile)
    (memo : ChainMemo) : Prop extends Faithful x t memo where
  activates : x.Activates t active memo

/-- A chain that remembers nothing but what is selected. -/
def selecting (p : Option Profile) : ChainMemo := { selected := p }

theorem recalls_selecting (p : Option Profile) :
    x.Recalls t (x.activeIn t (selecting p)) (selecting p) :=
  ⟨⟨nofun, nofun, nofun, nofun⟩, rfl⟩

/-- What is selected does not matter to the rest. -/
theorem Faithful.select (h : x.Faithful t memo) (p : Option Profile) :
    x.Faithful t { memo with selected := p } :=
  ⟨h.available, h.masks, h.archFlags, h.mirrors⟩

/-- Descriptors that are right are remembered, with profiles that are right. -/
theorem Recalls.remember (h : x.Recalls t active memo)
    {list : List (ProfileDescriptor × Option Profile)}
    (havailable : x.availableIn t = .ok (list.map Prod.fst))
    (hloaded : ∀ d p, (d, some p) ∈ list → loadIn t d = .ok p) :
    x.Recalls t active { memo with available := some list } :=
  ⟨⟨fun _ hlist => Option.some_inj.1 hlist ▸ ⟨havailable, hloaded⟩, h.masks, h.archFlags,
    h.mirrors⟩, h.activates.of_selected rfl⟩

/-! ## Reading once -/

theorem needMasks_readsOnce : ReadsOnce ChainMemo.repositoryMasks
    (fun memo masks => { memo with repositoryMasks := some masks }) x.needMasks t
    (x.needMasks.found t) := by
  refine (Exists.choose_spec ?_ : ReadsOnce _ _ _ _ _).readsOnce_found rfl
  apply Scan.readsOnce (g := Prod.fst) rfl
  case hsome => exact fun m a h => by rw [h]
  case hnone => exact fun m h => by rw [h]
  case hread => exact isReader_foldEach (fun _ _ _ => Profile.isReader_orWarn _ _ _) _
  case hafter => exact fun found j => ⟨rfl, rfl⟩

theorem archFlags_readsOnce : ReadsOnce ChainMemo.archFlags
    (fun memo flags => { memo with archFlags := some flags }) x.archFlags t
    (x.archFlags.found t) := by
  refine (Exists.choose_spec ?_ : ReadsOnce _ _ _ _ _).readsOnce_found rfl
  apply Scan.readsOnce (g := Prod.fst) rfl
  case hsome => exact fun m a h => by rw [h]
  case hnone => exact fun m h => by rw [h]
  case hread => exact isReader_foldEach (fun _ _ _ => Profile.isReader_orWarn _ _ _) _
  case hafter =>
    rintro ⟨flags, found⟩ j
    cases found <;> exact ⟨rfl, rfl⟩

theorem needMirrors_readsOnce : ReadsOnce ChainMemo.mirrors
    (fun memo mirrors => { memo with mirrors := some mirrors }) x.needMirrors t
    (x.needMirrors.found t) := by
  refine (Exists.choose_spec ?_ : ReadsOnce _ _ _ _ _).readsOnce_found rfl
  apply Scan.readsOnce (g := fun (found : MirrorDraft × Bool) =>
    ⟨found.1.urls.entries.map fun entry => (entry.1, entry.2.take mirrorLimit)⟩) rfl
  case hsome => exact fun m a h => by rw [h]
  case hnone => exact fun m h => by rw [h]
  case hread => exact isReader_foldEach (fun _ _ _ => Scan.isReader_pure _) _
  case hafter =>
    rintro ⟨draft, found⟩ j
    cases found <;> exact ⟨rfl, rfl⟩

theorem needMasks_yields :
    Yields (x.Recalls t active) x.needMasks t (x.needMasks.found t) :=
  needMasks_readsOnce.yields (fun _ _ h => h.masks _) fun _ _ h hmasks =>
    ⟨⟨h.available, fun _ hm => Option.some_inj.1 hm ▸ hmasks, h.archFlags, h.mirrors⟩,
      h.activates.of_selected rfl⟩

theorem archFlags_yields :
    Yields (x.Recalls t active) x.archFlags t (x.archFlags.found t) :=
  archFlags_readsOnce.yields (fun _ _ h => h.archFlags _) fun _ _ h hflags =>
    ⟨⟨h.available, h.masks, fun _ hm => Option.some_inj.1 hm ▸ hflags, h.mirrors⟩,
      h.activates.of_selected rfl⟩

theorem needMirrors_yields :
    Yields (x.Recalls t active) x.needMirrors t (x.needMirrors.found t) :=
  needMirrors_readsOnce.yields (fun _ _ h => h.mirrors _) fun _ _ h hmirrors =>
    ⟨⟨h.available, h.masks, h.archFlags, fun _ hm => Option.some_inj.1 hm ▸ hmirrors⟩,
      h.activates.of_selected rfl⟩

/-! ## Profiles -/

theorem profile_faithful : Keeps (x.Faithful t) x.profile t := by
  refine Scan.keeps_memo.bind fun memo => ?_
  cases memo.selected with
  | some p => exact Scan.keeps_pure p
  | none =>
    exact (Profile.isReader_load _).keeps_all.bind fun p =>
      (Scan.keeps_modifyMemo fun memo h => h.select (some p)).bind fun _ => Scan.keeps_pure p

theorem profile_recalls : Yields (x.Recalls t active) x.profile t active := fun j hj =>
  have ⟨hresult, hactivates⟩ := profile_yields j hj.activates
  ⟨hresult, profile_faithful j hj.toFaithful, hactivates⟩

/-- The descriptors are remembered once they are read; what was loaded for them may differ. -/
theorem needAvailable_on {j : Journal ChainMemo} (h : x.Recalls t active j.memo) :
    ∃ j', x.Recalls t active j'.memo ∧
      ((∃ list, x.needAvailable.on t j = (.ok list, j') ∧ j'.memo.available = some list ∧
          x.availableIn t = .ok (list.map Prod.fst)) ∨
        ∃ e, x.needAvailable.on t j = (.error e, j') ∧ x.availableIn t = .error e) := by
  unfold needAvailable
  rw [Scan.on_bind_of_ok (Scan.on_memo t j)]
  cases havailable : j.memo.available with
  | some list => exact ⟨j, h, .inl ⟨list, rfl, havailable, (h.available list havailable).1⟩⟩
  | none =>
    have hread : Reads id x.scanAvailable t (x.availableIn t) := isReader_scanAvailable.reads_found
    obtain ⟨j', hj', hmemo⟩ := hread.on_eq j
    have hmemo : j'.memo = j.memo := hmemo
    cases hfound : x.availableIn t with
    | error e =>
      rw [hfound] at hj'
      exact ⟨j', hmemo.symm ▸ h, .inr ⟨e, Scan.on_bind_of_error hj' _, rfl⟩⟩
    | ok ds =>
      rw [hfound] at hj'
      have hlist : (ds.map fun d => (d, (none : Option Profile))).map Prod.fst = ds := by
        simp [Function.comp_def]
      refine ⟨⟨{ j'.memo with available := some (ds.map fun d => (d, none)) }, j'.warnings⟩, ?_,
        .inl ⟨_, Scan.on_bind_of_ok hj' _, rfl, congrArg Except.ok hlist.symm⟩⟩
      rw [hmemo]
      refine h.remember (hfound.trans (congrArg Except.ok hlist.symm)) fun d p hd => ?_
      obtain ⟨_, -, hnone⟩ := List.mem_map.1 hd
      cases hnone

theorem available_yields : Yields (x.Recalls t active) x.available t (x.availableIn t) := by
  refine .of_on fun j h => ?_
  obtain ⟨j', h', ⟨list, hon, -, hlist⟩ | ⟨e, hon, he⟩⟩ := needAvailable_on h
  · exact ⟨j', hlist ▸ Scan.on_bind_of_ok hon _, h'⟩
  · exact ⟨j', he ▸ Scan.on_bind_of_error hon _, h'⟩

/-- A profile that was loaded is kept with its descriptor. -/
theorem Recalls.keepProfile (h : x.Recalls t active memo)
    {list : List (ProfileDescriptor × Option Profile)} (hlist : memo.available = some list)
    {k : Nat} {d : ProfileDescriptor} (hd : list[k]? = some (d, none)) {p : Profile}
    (hp : loadIn t d = .ok p) : x.Recalls t active { memo with
      available := memo.available.map fun list => list.set k (d, some p) } := by
  obtain ⟨havailable, hloaded⟩ := h.available list hlist
  rw [hlist]
  refine h.remember ?_ fun d' p' hmem => ?_
  · obtain ⟨hk, hd⟩ := List.getElem?_eq_some_iff.1 hd
    have hsame : (list.map Prod.fst).set k d = list.map Prod.fst := by
      have hself := List.set_getElem_self (show k < (list.map Prod.fst).length by simpa using hk)
      rwa [List.getElem_map, hd] at hself
    rw [havailable]
    exact congrArg Except.ok (List.map_set.trans hsame).symm
  · rcases List.mem_or_eq_of_mem_set hmem with hmem | heq
    · exact hloaded d' p' hmem
    · cases heq
      exact hp

theorem profileAt?_yields (k : Nat) :
    Yields (x.Recalls t active) (x.profileAt? k) t (x.profileAtIn t k) := by
  refine .of_on fun j h => ?_
  unfold profileAt?
  obtain ⟨j', h', ⟨list, hon, hmemo, hlist⟩ | ⟨e, hon, he⟩⟩ := needAvailable_on h
  · rw [Scan.on_bind_of_ok hon, profileAtIn_of_ok hlist, List.getElem?_map]
    cases hk : list[k]? with
    | none => exact ⟨j', rfl, h'⟩
    | some entry =>
      obtain ⟨d, _ | p⟩ := entry
      · have hread : Reads id (Profile.load [d.path]) t (loadIn t d) :=
          (Profile.isReader_load _).reads_found
        obtain ⟨j'', hj'', hsame⟩ := hread.on_eq j'
        have hsame : j''.memo = j'.memo := hsame
        dsimp only [Option.map_some]
        cases hload : loadIn t d with
        | error e =>
          rw [hload] at hj''
          exact ⟨j'', Scan.on_bind_of_error hj'' _, hsame.symm ▸ h'⟩
        | ok p =>
          rw [hload] at hj''
          have hkept := h'.keepProfile hmemo hk hload
          rw [← hsame] at hkept
          exact ⟨_, Scan.on_bind_of_ok hj'' _, hkept⟩
      · have hload : loadIn t d = .ok p :=
          (h'.available list hmemo).2 d p (List.mem_of_getElem? hk)
        dsimp only [Option.map_some]
        rw [hload]
        exact ⟨j', rfl, h'⟩
  · refine ⟨j', ?_, h'⟩
    rw [Scan.on_bind_of_error hon, profileAtIn, he]
    rfl

/-! ## Questions -/

/-- Two memos where this profile is active, and what is remembered besides is right. -/
def Alike (x : ProfileChain) (t : FileTree) (active : Except Error Profile)
    (memo memo' : ChainMemo) : Prop :=
  x.Recalls t active memo ∧ x.Recalls t active memo'

theorem useMask_agrees (flag : UseFlag) : Agrees (x.Alike t active) (x.useMask flag) t := by
  refine profile_recalls.agrees.bind fun p => ?_
  split
  · exact Scan.agrees_pure true
  · exact archFlags_yields.agrees.bind fun _ => Scan.agrees_pure _

theorem expandedFlags_agrees : Agrees (x.Alike t active) x.expandedFlags t := by
  refine profile_recalls.agrees.bind fun p => Agrees.foldlM _ (fun flags text => ?_) _
  cases UseFlag.parse text with
  | ok flag => exact Scan.agrees_pure _
  | error e => exact (Scan.agrees_warn _).bind fun _ => Scan.agrees_pure flags

theorem splitExpanded_agrees (flag : UseFlag) :
    Agrees (x.Alike t active) (x.splitExpanded flag) t := by
  refine profile_recalls.agrees.bind fun p => ?_
  dsimp only
  split
  · exact Scan.agrees_pure _
  · exact Scan.agrees_throw _

/-- What is answered depends on the active profile alone. -/
theorem answer_agrees {α : Type} {q : ProfileQuestion α} (h : q.selects = false) :
    Agrees (x.Alike t active) (x.answer q) t := by
  have hprofile {β : Type} (f : Profile → β) :
      Agrees (x.Alike t active) (do return f (← x.profile)) t :=
    profile_recalls.agrees.bind fun _ => Scan.agrees_pure _
  cases q with
  | directories => exact Scan.agrees_pure _
  | available => exact available_yields.agrees
  | profileAt k => exact (profileAt?_yields k).agrees
  | active => exact profile_recalls.agrees
  | select k => cases h
  | selectByArch arch => cases h
  | value name => exact hprofile _
  | virtuals => exact hprofile _
  | archFlags => exact archFlags_yields.agrees
  | useMask flag => exact useMask_agrees flag
  | useForce flag => exact hprofile _
  | mirrors mirror => exact needMirrors_yields.agrees.bind fun _ => Scan.agrees_pure _
  | mirrorNames => exact needMirrors_yields.agrees.bind fun _ => Scan.agrees_pure _
  | expandedFlags => exact expandedFlags_agrees
  | expandPrefixes => exact hprofile _
  | hiddenExpandPrefixes => exact hprofile _
  | expandName flag => exact (splitExpanded_agrees flag).bind fun _ => Scan.agrees_pure _
  | expandValue flag => exact (splitExpanded_agrees flag).bind fun _ => Scan.agrees_pure _

end ProfileChain

/-! ## Selections -/

/-- What selects a profile: a position among the available profiles, a descriptor made by hand, or
an architecture. -/
inductive Selection where
  | position (k : Nat)
  | descriptor (d : ProfileDescriptor)
  | arch (arch : String)

namespace Selection

open ProfileChain (adopt choose loadIn)

variable {x : ProfileChain} {t : FileTree} {active : Except Error Profile}

/-- The profile that is selected, by the files. -/
def profileIn (x : ProfileChain) (t : FileTree) : Selection → Except Error (Option Profile)
  | position k => x.profileAtIn t k
  | descriptor d => some <$> loadIn t d
  | arch a => some <$> x.byArchIn t a

/-- The profile that is active once another was looked for. -/
def activeAfter (active : Except Error Profile) :
    Except Error (Option Profile) → Except Error Profile
  | .ok (some p) => .ok p
  | _ => active

theorem keepSelected {memo : ChainMemo} (h : x.Faithful t memo) (p : Profile) :
    x.Recalls t (.ok p) { memo with selected := some p } :=
  ⟨h.select (some p), rfl⟩

theorem select_on (k : Nat) {j : Journal ChainMemo} (h : x.Recalls t active j.memo) :
    ∃ j', (x.select k).on t j = ((x.profileAtIn t k).map Option.isSome, j') ∧
      x.Recalls t (activeAfter active (x.profileAtIn t k)) j'.memo := by
  obtain ⟨j', hj', h'⟩ := (ProfileChain.profileAt?_yields k).on_eq h
  unfold ProfileChain.select
  cases hfound : x.profileAtIn t k with
  | error e =>
    rw [hfound] at hj'
    exact ⟨j', Scan.on_bind_of_error hj' _, h'⟩
  | ok found =>
    rw [hfound] at hj'
    rw [Scan.on_bind_of_ok hj']
    cases found with
    | none => exact ⟨j', rfl, h'⟩
    | some p => exact ⟨_, rfl, keepSelected h'.toFaithful p⟩

theorem adopt_on (d : ProfileDescriptor) {j : Journal ChainMemo} (h : x.Recalls t active j.memo) :
    ∃ j', (adopt d).on t j = ((loadIn t d).map fun _ => (), j') ∧
      x.Recalls t (activeAfter active (some <$> loadIn t d)) j'.memo := by
  have hread : Reads id (Profile.load [d.path]) t (loadIn t d) :=
    (Profile.isReader_load _).reads_found
  obtain ⟨j', hj', hmemo⟩ := hread.on_eq j
  have h' : x.Recalls t active j'.memo := (show j'.memo = j.memo from hmemo).symm ▸ h
  unfold adopt
  cases hload : loadIn t d with
  | error e =>
    rw [hload] at hj'
    exact ⟨j', Scan.on_bind_of_error hj' _, h'⟩
  | ok p =>
    rw [hload] at hj'
    exact ⟨_, Scan.on_bind_of_ok hj' _, keepSelected h'.toFaithful p⟩

theorem selectByArch_on (a : String) {j : Journal ChainMemo} (h : x.Recalls t active j.memo) :
    ∃ result j', (x.selectByArch a).on t j = (result, j') ∧
      result.map (fun _ => ()) = (x.byArchIn t a).map (fun _ => ()) ∧
      x.Recalls t (activeAfter active (some <$> x.byArchIn t a)) j'.memo := by
  obtain ⟨j', hj', h'⟩ := ProfileChain.available_yields.on_eq h
  unfold ProfileChain.selectByArch
  cases hlist : x.availableIn t with
  | error e =>
    rw [hlist] at hj'
    rw [Scan.on_bind_of_error hj', ProfileChain.byArchIn, hlist]
    exact ⟨_, j', rfl, rfl, h'⟩
  | ok list =>
    rw [hlist] at hj'
    rw [Scan.on_bind_of_ok hj', ProfileChain.byArchIn_of_ok hlist]
    cases choose list a with
    | none => exact ⟨_, j', rfl, rfl, h'⟩
    | some k =>
      dsimp only [Option.bind_some]
      have hat := ProfileChain.profileAtIn_of_ok hlist k
      cases hd : list[k]? with
      | none => exact ⟨_, j', rfl, rfl, h'⟩
      | some d =>
        rw [hd] at hat
        obtain ⟨j'', hj'', h''⟩ := select_on k h'
        rw [hat] at hj'' h''
        dsimp only [Option.map_some] at hj'' h'' ⊢
        rw [Scan.on_bind, Scan.on_discard, hj'']
        cases hload : loadIn t d with
        | error e =>
          rw [hload] at h''
          exact ⟨_, j'', rfl, rfl, h''⟩
        | ok p =>
          rw [hload] at h''
          exact ⟨_, j'', rfl, rfl, h''⟩

end Selection

end PackageCatalog
