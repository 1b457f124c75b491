import PackageCatalog.Profile.Chain
import PackageCatalog.Proofs.Scans

/-!
# The active profile

`x.activeIn t memo` is the profile that is active where `memo` is remembered: the one selected last,
or else the default as the files have it.  Loading a profile reads files and nothing else, so that
no query changes which profile is active; only a selection does:

    x.profile finds x.activeIn t memo                                         (profile_yields)
    a selection that finds no profile changes nothing                         (select_activeIn)
-/

namespace PackageCatalog

instance : Inhabited ChainMemo := ⟨{}⟩

/-! ## Accepted versions -/

section
variable {σ : Type} {I : σ → Prop} {t : FileTree} {slotOf : Scan σ (Option Slot)}
  {slot : Option Slot}

/-- Finding out the slot of the candidate changes no answer. -/
theorem Atom.acceptsM_yields (h : Scan.Yields I slotOf t (.ok slot)) (a : Atom)
    (n : QualifiedName) (v : Version) (repository : String) :
    Scan.Yields I (a.acceptsM n v repository slotOf) t (.ok (a.accepts n v repository slot)) := by
  unfold acceptsM accepts
  cases a.acceptsApartFromSlot n v repository with
  | false => exact Scan.yields_pure false
  | true =>
    cases a.wantedSlot with
    | none => exact Scan.yields_pure true
    | some wanted => exact h.bind_ok (Scan.yields_pure _)

theorem Profile.anyAccepts_yields (h : Scan.Yields I slotOf t (.ok slot)) (masks : List Atom)
    (n : QualifiedName) (v : Version) (repository : String) :
    Scan.Yields I (anyAccepts masks n v repository slotOf) t
      (.ok (masks.any fun mask => mask.accepts n v repository slot)) :=
  .anyM masks fun mask => mask.acceptsM_yields h n v repository

end

/-! ## Loading -/

namespace Profile

open Scan (IsReader)

variable {σ τ : Type} {view : σ → τ} {t : FileTree}

theorem isReader_stack (fuel : Nat) (s : Stack) (dir : String) :
    IsReader view (stack fuel s dir) t := by
  induction fuel generalizing s dir with
  | zero => exact Scan.isReader_throw _
  | succ fuel ih =>
    unfold stack
    split
    · exact Scan.isReader_pure s
    · refine (Scan.reads_isDirectory dir).isReader.bind fun present => ?_
      have hparents : IsReader view (Config.readLineFile (Path.join dir "parent")) t :=
        (Scan.reads_readLineFile _).isReader
      have hrest := hparents.bind fun parents =>
        (IsReader.foldlM (parents.getD []) (fun s parent => ih s (Path.join dir parent))
          { s with entered := s.entered ++ [dir] }).bind fun s =>
          Scan.isReader_pure { s with dirs := s.dirs ++ [dir] }
      cases present with
      | false => exact (Scan.isReader_throw _).bind fun _ => hrest
      | true => exact hrest

theorem isReader_applyLines {α : Type} {path : String} {apply : α → String → Scan σ α}
    (h : ∀ a line, IsReader view (apply a line) t) (start : α) :
    IsReader view (applyLines path apply start) t := by
  refine (Scan.reads_readLineFile path).isReader.bind fun lines => ?_
  cases lines with
  | none => exact Scan.isReader_pure start
  | some lines => exact .foldlM lines h start

theorem isReader_orWarn {α : Type} (path : String) (before : α) (outcome : Except Error α) :
    IsReader view (orWarn path before outcome) t := by
  cases outcome with
  | ok after => exact Scan.isReader_pure after
  | error e => exact (Scan.isReader_warn _).bind fun _ => Scan.isReader_pure before

theorem isReader_loadVirtuals (dir : String) (p : Profile) :
    IsReader view (loadVirtuals dir p) t := by
  refine isReader_applyLines (fun p line => ?_) p
  cases p.applyVirtualsLine (Path.join dir "virtuals") line with
  | ok p => exact Scan.isReader_pure p
  | error w => exact (Scan.isReader_warn w).bind fun _ => Scan.isReader_pure p

theorem isReader_loadDir (p : Profile) (dir : String) : IsReader view (loadDir p dir) t :=
  ((Scan.isReader_readAssignmentFile _).bind fun _ => Scan.isReader_pure _).bind fun _ =>
    (isReader_applyLines (fun _ _ => isReader_orWarn _ _ _) _).bind fun _ =>
    (isReader_applyLines (fun _ _ => isReader_orWarn _ _ _) _).bind fun _ =>
    (isReader_applyLines (fun _ _ => isReader_orWarn _ _ _) _).bind fun _ =>
    isReader_loadVirtuals dir _

theorem isReader_load (dirs : List String) : IsReader view (load dirs) t :=
  (IsReader.foldlM dirs (isReader_stack parentLimit) _).bind fun s =>
    .foldlM s.dirs isReader_loadDir _

end Profile

namespace ProfileChain

open Scan (IsReader Keeps Yields)

variable {x : ProfileChain} {t : FileTree} {active : Except Error Profile}

/-- The profile that is active where a memo is remembered. -/
def activeIn (x : ProfileChain) (t : FileTree) (memo : ChainMemo) : Except Error Profile :=
  match memo.selected with
  | some p => .ok p
  | none => (Profile.load x.configured : Scan ChainMemo Profile).found t

/-- The memos where this profile is active. -/
def Activates (x : ProfileChain) (t : FileTree) (active : Except Error Profile)
    (memo : ChainMemo) : Prop :=
  x.activeIn t memo = active

theorem Activates.of_selected {memo memo' : ChainMemo} (h : x.Activates t active memo)
    (hselected : memo'.selected = memo.selected) : x.Activates t active memo' := by
  unfold Activates activeIn at h ⊢
  rwa [hselected]

/-- What only reads, selections set apart, keeps the active profile. -/
theorem keeps_of_isReader {α : Type} {s : Scan ChainMemo α}
    (h : IsReader ChainMemo.selected s t) : Keeps (x.Activates t active) s t :=
  fun _ hj => hj.of_selected (h.keeps _ _ rfl)

/-- So does what is remembered besides the selection. -/
theorem keeps_remember {α : Type} {f : ChainMemo → ChainMemo} {a : α}
    (h : ∀ memo, (f memo).selected = memo.selected) :
    Keeps (x.Activates t active) (do Scan.modifyMemo f; return a) t :=
  (Scan.keeps_modifyMemo fun memo hmemo => hmemo.of_selected (h memo)).bind fun _ =>
    Scan.keeps_pure a

/-! ## The active profile -/

theorem profile_yields : Yields (x.Activates t active) x.profile t active := by
  refine .of_on fun j h => ?_
  unfold profile
  rw [Scan.on_bind_of_ok (Scan.on_memo t j)]
  unfold Activates activeIn at h
  cases hselected : j.memo.selected with
  | some p =>
    rw [hselected] at h
    refine ⟨j, congrArg (·, j) h, ?_⟩
    unfold Activates activeIn
    rwa [hselected]
  | none =>
    rw [hselected] at h
    simp only at h ⊢
    have hload : Scan.IsReader ChainMemo.selected (Profile.load x.configured) t :=
      Profile.isReader_load x.configured
    obtain ⟨j', hj', hview⟩ := hload.reads_found.on_eq j
    rw [h] at hj'
    cases active with
    | ok p => exact ⟨_, Scan.on_bind_of_ok hj' _, rfl⟩
    | error e =>
      refine ⟨j', Scan.on_bind_of_error hj' _, ?_⟩
      unfold Activates activeIn
      rw [hview, hselected]
      exact h

theorem profile_keeps : Keeps (x.Activates t active) x.profile t := profile_yields.keeps

theorem virtuals_yields : Yields (x.Activates t active) x.virtuals t
    (active.map Profile.virtualList) := by
  unfold virtuals
  rw [bind_pure_comp]
  exact profile_yields.map _

/-! ## Available profiles -/

theorem isReader_scanAvailable {τ : Type} {view : ChainMemo → τ} :
    IsReader view x.scanAvailable t := by
  refine (IsReader.mapM x.profilesDirs fun dir =>
    (Scan.reads_readLineFile _).isReader.bind fun _ => Scan.isReader_pure _).bind fun found => ?_
  dsimp only
  split
  · exact (Scan.isReader_throw _).bind fun _ => Scan.isReader_pure _
  · exact Scan.isReader_pure _

theorem needAvailable_keeps : Keeps (x.Activates t active) x.needAvailable t := by
  refine Scan.keeps_memo.bind fun memo => ?_
  cases memo.available with
  | some available => exact Scan.keeps_pure available
  | none =>
    exact (keeps_of_isReader isReader_scanAvailable).bind fun _ => keeps_remember fun _ => rfl

theorem available_keeps : Keeps (x.Activates t active) x.available t :=
  needAvailable_keeps.bind fun _ => Scan.keeps_pure _

theorem profileAt?_keeps (k : Nat) : Keeps (x.Activates t active) (x.profileAt? k) t := by
  refine needAvailable_keeps.bind fun available => ?_
  split
  · exact Scan.keeps_pure none
  · exact Scan.keeps_pure _
  · exact (keeps_of_isReader (Profile.isReader_load _)).bind fun _ => keeps_remember fun _ => rfl

/-! ## Selecting -/

/-- Nothing is selected where no profile is found. -/
theorem select_activeIn {k : Nat} {j j' : Journal ChainMemo} {r : Except Error Bool}
    (h : (x.select k).on t j = (r, j')) (hr : r ≠ .ok true) :
    x.activeIn t j'.memo = x.activeIn t j.memo := by
  have hkeeps : x.activeIn t ((x.profileAt? k).on t j).2.memo = x.activeIn t j.memo :=
    profileAt?_keeps k j rfl
  unfold select at h
  rw [Scan.on_bind] at h
  cases hfound : ((x.profileAt? k).on t j).1 with
  | error e =>
    rw [hfound] at h
    cases h
    exact hkeeps
  | ok found =>
    rw [hfound] at h
    cases found with
    | none =>
      cases h
      exact hkeeps
    | some p =>
      cases h
      exact absurd rfl hr

theorem adopt_activeIn {d : ProfileDescriptor} {j j' : Journal ChainMemo} {e : Error}
    (h : (adopt d).on t j = (.error e, j')) : x.activeIn t j'.memo = x.activeIn t j.memo := by
  have hload : Keeps (x.Activates t (x.activeIn t j.memo)) (Profile.load [d.path]) t :=
    keeps_of_isReader (Profile.isReader_load _)
  have hkeeps := hload j rfl
  unfold adopt at h
  rw [Scan.on_bind] at h
  cases hloaded : ((Profile.load [d.path] : Scan ChainMemo Profile).on t j).1 with
  | error e' =>
    rw [hloaded] at h
    cases h
    exact hkeeps
  | ok p =>
    rw [hloaded] at h
    cases h

theorem selectByArch_activeIn {arch : String} {j j' : Journal ChainMemo} {e : Error}
    (h : (x.selectByArch arch).on t j = (.error e, j')) :
    x.activeIn t j'.memo = x.activeIn t j.memo := by
  have hkeeps : x.activeIn t (x.available.on t j).2.memo = x.activeIn t j.memo :=
    available_keeps j rfl
  unfold selectByArch at h
  rw [Scan.on_bind] at h
  cases hlist : (x.available.on t j).1 with
  | error e' =>
    rw [hlist] at h
    cases h
    exact hkeeps
  | ok list =>
    rw [hlist] at h
    simp only at h
    split at h
    · cases h
      exact hkeeps
    · next k d _ =>
      cases hselect : (x.select k).on t (x.available.on t j).2 with
      | mk r j₂ =>
        rw [Scan.on_bind, Scan.on_discard, hselect] at h
        cases r with
        | ok found => cases h
        | error e' =>
          cases h
          rw [select_activeIn hselect nofun, hkeeps]

/-! ## Other queries -/

/-- A property of what is remembered of profiles that no query of a profile disturbs; what else is
remembered does not matter to it. -/
structure Maintained (x : ProfileChain) (t : FileTree) (Q : ChainMemo → Prop) : Prop where
  available : Keeps Q x.needAvailable t
  profileAt (k : Nat) : Keeps Q (x.profileAt? k) t
  profile : Keeps Q x.profile t
  besides {memo memo' : ChainMemo} (h : Q memo) (havailable : memo'.available = memo.available)
    (hselected : memo'.selected = memo.selected) : Q memo'

theorem maintained_activates : x.Maintained t (x.Activates t active) where
  available := needAvailable_keeps
  profileAt := profileAt?_keeps
  profile := profile_keeps
  besides h _ hselected := h.of_selected hselected

theorem isReader_foldEach {α τ : Type} {view : ChainMemo → τ} {file : String}
    {apply : String → α → String → Scan ChainMemo α}
    (h : ∀ path a line, IsReader view (apply path a line) t) (start : α) :
    IsReader view (x.foldEach file apply start) t := by
  refine .foldlM x.profilesDirs (fun found dir => ?_) _
  refine (Scan.reads_readLineFile _).isReader.bind fun lines => ?_
  cases lines with
  | none => exact Scan.isReader_pure found
  | some lines => exact (IsReader.foldlM lines (h _) found.1).bind fun _ => Scan.isReader_pure _

namespace Maintained

variable {Q : ChainMemo → Prop} (h : x.Maintained t Q)
include h

/-- What is remembered besides the profiles is read once. -/
theorem remember {α : Type} {f : ChainMemo → ChainMemo} {a : α}
    (havailable : ∀ memo, (f memo).available = memo.available)
    (hselected : ∀ memo, (f memo).selected = memo.selected) :
    Keeps Q (do Scan.modifyMemo f; return a) t :=
  (Scan.keeps_modifyMemo fun memo hmemo => h.besides hmemo (havailable memo) (hselected memo)).bind
    fun _ => Scan.keeps_pure a

omit h in
theorem foldEach {α : Type} {file : String} {apply : String → α → String → Scan ChainMemo α}
    (happly : ∀ path a line, IsReader id (apply path a line) t) (start : α) :
    Keeps Q (x.foldEach file apply start) t :=
  (isReader_foldEach happly start).keeps_all

theorem needMasks : Keeps Q x.needMasks t := by
  refine Scan.keeps_memo.bind fun memo => ?_
  cases memo.repositoryMasks with
  | some masks => exact Scan.keeps_pure masks
  | none =>
    exact (foldEach (fun _ _ _ => Profile.isReader_orWarn _ _ _) _).bind fun _ =>
      h.remember (fun _ => rfl) fun _ => rfl

theorem archFlags : Keeps Q x.archFlags t := by
  refine Scan.keeps_memo.bind fun memo => ?_
  cases memo.archFlags with
  | some flags => exact Scan.keeps_pure flags
  | none =>
    refine (foldEach (fun _ _ _ => Profile.isReader_orWarn _ _ _) _).bind fun result => ?_
    obtain ⟨flags, found⟩ := result
    have hremember : Keeps Q (do
        Scan.modifyMemo fun memo => { memo with archFlags := some flags }
        return flags) t := h.remember (fun _ => rfl) fun _ => rfl
    cases found with
    | true => exact hremember
    | false => exact (Scan.keeps_warn _).bind fun _ => hremember

theorem needMirrors : Keeps Q x.needMirrors t := by
  refine Scan.keeps_memo.bind fun memo => ?_
  cases memo.mirrors with
  | some mirrors => exact Scan.keeps_pure mirrors
  | none =>
    refine (foldEach (fun _ _ _ => Scan.isReader_pure _) _).bind fun result => ?_
    obtain ⟨draft, found⟩ := result
    cases found with
    | true => exact h.remember (fun _ => rfl) fun _ => rfl
    | false => exact (Scan.keeps_warn _).bind fun _ => h.remember (fun _ => rfl) fun _ => rfl

theorem useMask (flag : UseFlag) : Keeps Q (x.useMask flag) t := by
  refine h.profile.bind fun p => ?_
  split
  · exact Scan.keeps_pure true
  · exact h.archFlags.bind fun _ => Scan.keeps_pure _

theorem expandedFlags : Keeps Q x.expandedFlags t := by
  refine h.profile.bind fun p => Keeps.foldlM _ (fun flags text => ?_) _
  cases UseFlag.parse text with
  | ok flag => exact Scan.keeps_pure _
  | error e => exact (Scan.keeps_warn _).bind fun _ => Scan.keeps_pure flags

theorem splitExpanded (flag : UseFlag) : Keeps Q (x.splitExpanded flag) t := by
  refine h.profile.bind fun p => ?_
  dsimp only
  split
  · exact Scan.keeps_pure _
  · exact Scan.keeps_throw _

end Maintained

end ProfileChain

end PackageCatalog
