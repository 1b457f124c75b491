import PackageCatalog.Catalog.Virtuals
import PackageCatalog.Proofs.Index.History
import PackageCatalog.Proofs.Profile.Active
import PackageCatalog.Proofs.Repository.Invalidation

/-!
# What source repositories declare

Declared virtuals come from the active profile of one source repository and the versions of another.
Both are found whatever else was asked before, as long as the memo is `Current`: what its index
knows is right, and the profile is the active one.  Every question keeps a memo so, but for those
that select a profile (`reply_keeps_current`).
-/

namespace PackageCatalog

open Scan (Keeps Yields)

/-! ## Accepted versions -/

namespace Atom

variable {σ : Type} {I : σ → Prop} {t : FileTree}

theorem acceptsM_keeps {a : Atom} {n : QualifiedName} {v : Version} {repository : String}
    {slot : Scan σ (Option Slot)} (h : Keeps I slot t) :
    Keeps I (a.acceptsM n v repository slot) t := by
  unfold acceptsM
  cases a.acceptsApartFromSlot n v repository with
  | false => exact Scan.keeps_pure false
  | true =>
    cases a.wantedSlot with
    | none => exact Scan.keeps_pure true
    | some wanted => exact h.bind fun _ => Scan.keeps_pure _

end Atom

/-! ## Questions to profiles -/

/-- Whether a question selects a profile. -/
def ProfileQuestion.selects {α : Type} : ProfileQuestion α → Bool
  | .select _ | .selectByArch _ => true
  | _ => false

namespace ProfileChain

variable {x : ProfileChain} {t : FileTree} {Q : ChainMemo → Prop}

theorem Maintained.answer (h : x.Maintained t Q) {α : Type} {q : ProfileQuestion α}
    (hselects : q.selects = false) : Keeps Q (x.answer q) t := by
  cases q with
  | directories => exact Scan.keeps_pure _
  | available => exact h.available.bind fun _ => Scan.keeps_pure _
  | profileAt k => exact h.profileAt k
  | active => exact h.profile
  | select k => cases hselects
  | selectByArch arch => cases hselects
  | value name => exact h.profile.bind fun _ => Scan.keeps_pure _
  | virtuals => exact h.profile.bind fun _ => Scan.keeps_pure _
  | archFlags => exact h.archFlags
  | useMask flag => exact h.useMask flag
  | useForce flag => exact h.profile.bind fun _ => Scan.keeps_pure _
  | mirrors mirror => exact h.needMirrors.bind fun _ => Scan.keeps_pure _
  | mirrorNames => exact h.needMirrors.bind fun _ => Scan.keeps_pure _
  | expandedFlags => exact h.expandedFlags
  | expandPrefixes => exact h.profile.bind fun _ => Scan.keeps_pure _
  | hiddenExpandPrefixes => exact h.profile.bind fun _ => Scan.keeps_pure _
  | expandName flag => exact (h.splitExpanded flag).bind fun _ => Scan.keeps_pure _
  | expandValue flag => exact (h.splitExpanded flag).bind fun _ => Scan.keeps_pure _

end ProfileChain

/-- Whether a question selects a profile. -/
def EbuildQuestion.selects {α : Type} : EbuildQuestion α → Bool
  | .profile q => q.selects
  | _ => false

namespace EbuildRepository

variable {r : EbuildRepository} {t : FileTree} {α : Type}

/-! ## Parts of a memo -/

/-- What is so of the index and of the profiles of a memo. -/
structure Parts (P : IndexMemo → Prop) (Q : ChainMemo → Prop) (memo : EbuildMemo) : Prop where
  index : P memo.index
  profiles : Q memo.profiles

section
variable {P : IndexMemo → Prop} {Q : ChainMemo → Prop}

theorem onIndex_keeps {s : Scan IndexMemo α} (h : Keeps P s t) :
    Keeps (Parts P Q) (EbuildMemo.onIndex s) t :=
  h.zoom (fun _ hmemo => hmemo.index) fun _ _ hmemo hnew => ⟨hnew, hmemo.profiles⟩

theorem onProfiles_keeps {s : Scan ChainMemo α} (h : Keeps Q s t) :
    Keeps (Parts P Q) (EbuildMemo.onProfiles s) t :=
  h.zoom (fun _ hmemo => hmemo.profiles) fun _ _ hmemo hnew => ⟨hmemo.index, hnew⟩

theorem onIndex_parts {s : Scan IndexMemo α} {result : Except Error α} (h : Yields P s t result) :
    Yields (Parts P Q) (EbuildMemo.onIndex s) t result :=
  h.zoom (fun _ hmemo => hmemo.index) fun _ _ hmemo hnew => ⟨hnew, hmemo.profiles⟩

theorem onProfiles_parts {s : Scan ChainMemo α} {result : Except Error α}
    (h : Yields Q s t result) : Yields (Parts P Q) (EbuildMemo.onProfiles s) t result :=
  h.zoom (fun _ hmemo => hmemo.profiles) fun _ _ hmemo hnew => ⟨hmemo.index, hnew⟩

theorem onNames_keeps (s : Scan NamesMemo α) : Keeps (Parts P Q) (EbuildMemo.onNames s) t :=
  Keeps.zoom (J := fun _ => True) (fun _ _ => trivial) (fun _ _ => trivial) fun _ _ hmemo _ =>
    ⟨hmemo.index, hmemo.profiles⟩

/-! ## Questions -/

variable (hP : ∀ {α : Type} (q : Index.Query α), Keeps P (r.index.reply q) t)
include hP

theorem answer_keeps (q : Question α) : Keeps (Parts P Q) (r.answer q) t := by
  have hindex : Keeps (Parts P Q) (EbuildMemo.onIndex (r.index.answer q)) t :=
    onIndex_keeps (hP (.ask q))
  cases q with
  | containing p =>
    refine (onNames_keeps _).bind fun categories => ?_
    cases categories with
    | some categories => exact Scan.keeps_pure categories
    | none => exact hindex
  | _ => exact hindex

theorem slotOf_keeps (n : QualifiedName) (v : Version) : Keeps (Parts P Q) (r.slotOf n v) t := by
  refine (onIndex_keeps (hP (.ask (.metadata n v)))).attempt.bind fun outcome => ?_
  cases outcome with
  | ok m => exact Scan.keeps_pure _
  | error e => exact (Scan.keeps_warn _).bind fun _ => Scan.keeps_pure none

theorem anyAccepts_keeps (masks : List Atom) (n : QualifiedName) (v : Version)
    (repository : String) :
    Keeps (Parts P Q) (Profile.anyAccepts masks n v repository (r.slotOf n v)) t :=
  .anyM masks fun _ => Atom.acceptsM_keeps (slotOf_keeps hP n v)

theorem virtualMetadata_keeps (e : VirtualEntry) :
    Keeps (Parts P Q) (r.virtualMetadata e) t := by
  have hrecord : Keeps (Parts P Q)
      (EbuildMemo.onIndex (r.index.virtualMetadata e.virtualName e.provider e.version)) t := by
    refine onIndex_keeps ((hP (.ask (.metadata e.provider e.version))).bind fun m => ?_)
    cases Metadata.forVirtual e.virtualName e.provider e.version m with
    | ok record => exact Scan.keeps_pure record
    | error e => exact Scan.keeps_throw e
  unfold virtualMetadata
  split
  · exact (Scan.keeps_throw _).bind fun _ => hrecord
  · exact hrecord

/-- A question that selects no profile keeps what the index and the profiles keep. -/
theorem reply_keeps (hQ : r.profiles.Maintained t Q) {q : EbuildQuestion α} (h : q.selects = false) :
    Keeps (Parts P Q) (r.reply q) t := by
  cases q with
  | package q => exact answer_keeps hP q
  | profile q => exact onProfiles_keeps (hQ.answer h)
  | repositoryMasked n v =>
    exact (onProfiles_keeps hQ.needMasks).bind fun _ => anyAccepts_keeps hP _ n v _
  | profileMasked n v =>
    exact (onProfiles_keeps hQ.profile).bind fun _ =>
      anyAccepts_keeps hP _ n v _
  | virtualMetadata e => exact virtualMetadata_keeps hP e
  | license license => exact fun _ hmemo => hmemo

end

theorem regenerate_keeps (hP : ∀ {α : Type} (q : Index.Query α) t, Keeps P (r.index.reply q) t) :
    Change.Keeps (Parts P Q) r.regenerate :=
  (Change.keeps_scan fun t => onIndex_keeps (hP .allPackages t)).bind fun _ =>
    Change.keeps_zoom _ fun _ _ h => ⟨h.index, h.profiles⟩

/-! ## Current memos -/

variable {active : Except Error Profile}

/-- What the index of a memo knows is right, and this profile is active. -/
structure Current (r : EbuildRepository) (t : FileTree) (active : Except Error Profile)
    (memo : EbuildMemo) : Prop where
  index : r.index.Sound t memo.index
  profile : r.profiles.Activates t active memo.profiles

theorem onIndex_yields {s : Scan IndexMemo α} {result : Except Error α}
    (h : Yields (r.index.Sound t) s t result) :
    Yields (r.Current t active) (EbuildMemo.onIndex s) t result :=
  h.zoom (fun _ hmemo => hmemo.index) fun _ _ hmemo hnew => ⟨hnew, hmemo.profile⟩

theorem onProfiles_yields {s : Scan ChainMemo α} {result : Except Error α}
    (h : Yields (r.profiles.Activates t active) s t result) :
    Yields (r.Current t active) (EbuildMemo.onProfiles s) t result :=
  h.zoom (fun _ hmemo => hmemo.profile) fun _ _ hmemo hnew => ⟨hmemo.index, hnew⟩

/-- Only a selection changes which profile is active. -/
theorem reply_keeps_current {q : EbuildQuestion α} (h : q.selects = false) :
    Keeps (r.Current t active) (r.reply q) t := fun j hj =>
  have hparts := reply_keeps Index.reply_keeps ProfileChain.maintained_activates h j
    ⟨hj.index, hj.profile⟩
  ⟨hparts.index, hparts.profiles⟩

/-! ## Declared virtuals and their providers -/

theorem virtualPackages_yields :
    Yields (r.Current t active) r.virtualPackages t (active.map Profile.virtualList) :=
  onProfiles_yields ProfileChain.virtuals_yields

/-- The slot of a package version in the files, if it has one. -/
def slotIn (r : EbuildRepository) (t : FileTree) (n : QualifiedName) (v : Version) : Option Slot :=
  (r.index.recordIn t n v).toOption.map (·.slot)

/-- The versions of a provider in the files that a declaration accepts. -/
def acceptedIn (r : EbuildRepository) (t : FileTree) (atom : Atom) (provider : QualifiedName) :
    Except Error (List Version) :=
  (r.index.versionsIn t provider).map fun versions =>
    versions.filter fun v => atom.accepts provider v r.name (r.slotIn t provider v)

/-- The versions that a declaration accepts, of those that are always told of. -/
theorem acceptedVersions_yields_of {I : EbuildMemo → Prop} (atom : Atom) {provider : QualifiedName}
    {versions : Except Error (List Version)} {record : Version → Except Error Metadata}
    (hversions : Yields I (EbuildMemo.onIndex (r.index.versions provider)) t versions)
    (hrecord : ∀ v, Yields I (EbuildMemo.onIndex (r.index.metadata provider v)) t (record v)) :
    Yields I (CatalogM.acceptedVersions r atom provider) t (versions.map fun vs =>
      vs.filter fun v => atom.accepts provider v r.name ((record v).toOption.map (·.slot))) := by
  cases versions with
  | error e => exact hversions.bind_error _
  | ok vs =>
    refine hversions.bind_ok ?_
    show Yields _ _ t (.ok (vs.filter _))
    rw [← Scan.filterM_ok]
    refine Yields.filterM vs fun v _ => atom.acceptsM_yields ?_ provider v r.name
    refine (hrecord v).attempt.bind_ok ?_
    cases record v with
    | ok m => exact Scan.yields_pure _
    | error e => exact Scan.yields_pure _

theorem acceptedVersions_yields (atom : Atom) (provider : QualifiedName) :
    Yields (r.Current t active) (CatalogM.acceptedVersions r atom provider) t
      (r.acceptedIn t atom provider) :=
  acceptedVersions_yields_of atom (onIndex_yields (Index.versions_yields provider)) fun v =>
    onIndex_yields (Index.metadata_yields provider v)

end EbuildRepository

end PackageCatalog
