import PackageCatalog.Proofs.Index.Likeness
import PackageCatalog.Proofs.NamesCache.Lookup
import PackageCatalog.Proofs.Profile.Recall

/-!
# What a selection leaves alone

A source repository is `Settled` when what it remembers of its profiles and of its names cache is
what it would read again.  Two settled memos with the same active profile, whose indexes know the
same, are told apart by no question:

    r.Twins t active memo memo' → r.reply q has the same result from both            (reply_agrees)

So all that a selection can change is the active profile.
-/

namespace PackageCatalog

open Scan (Agrees)

theorem Atom.acceptsM_agrees {σ : Type} {R : σ → σ → Prop} {t : FileTree} {a : Atom}
    {n : QualifiedName} {v : Version} {repository : String} {slot : Scan σ (Option Slot)}
    (h : Agrees R slot t) : Agrees R (a.acceptsM n v repository slot) t := by
  unfold acceptsM
  cases a.acceptsApartFromSlot n v repository with
  | false => exact Scan.agrees_pure false
  | true =>
    cases a.wantedSlot with
    | none => exact Scan.agrees_pure true
    | some wanted => exact h.bind fun _ => Scan.agrees_pure _

namespace EbuildRepository

variable {r : EbuildRepository} {t : FileTree} {active : Except Error Profile}
  {memo memo' : EbuildMemo} {α : Type}

/-- What is remembered of the profiles and of the names cache is what would be read, and this
profile is active. -/
structure Settled (r : EbuildRepository) (t : FileTree) (active : Except Error Profile)
    (memo : EbuildMemo) : Prop where
  profiles : r.profiles.Recalls t active memo.profiles
  names : NamesCache.Sound r.namesCache t memo.names

theorem settled_freshMemo :
    r.Settled t (r.profiles.activeIn t (ProfileChain.selecting none)) r.freshMemo :=
  ⟨ProfileChain.recalls_selecting none, NamesCache.sound_freshMemo⟩

/-- Nothing is remembered of the profiles but what is selected. -/
theorem Settled.selecting (h : r.Settled t active memo) {p : Option Profile}
    (hp : r.profiles.activeIn t (ProfileChain.selecting p) = active) :
    r.Settled t active { memo with profiles := ProfileChain.selecting p } :=
  ⟨hp ▸ ProfileChain.recalls_selecting p, h.names⟩

/-- Two settled memos whose indexes know the same. -/
structure Twins (r : EbuildRepository) (t : FileTree) (active : Except Error Profile)
    (memo memo' : EbuildMemo) : Prop where
  index : Index.KnowsAlike memo.index memo'.index
  left : r.Settled t active memo
  right : r.Settled t active memo'

theorem Settled.twins (h : r.Settled t active memo) (h' : r.Settled t active memo')
    (hindex : memo.index = memo'.index) : r.Twins t active memo memo' :=
  ⟨congrArg IndexMemo.knowledge hindex, h, h'⟩

/-! ## Parts -/

theorem onIndex_agrees {s : Scan IndexMemo α} (h : Agrees Index.KnowsAlike s t) :
    Agrees (r.Twins t active) (EbuildMemo.onIndex s) t :=
  h.zoom (fun _ _ h => h.index) fun _ _ _ _ h hindex =>
    ⟨hindex, ⟨h.left.profiles, h.left.names⟩, h.right.profiles, h.right.names⟩

theorem onProfiles_agrees {s : Scan ChainMemo α}
    (h : Agrees (r.profiles.Alike t active) s t) :
    Agrees (r.Twins t active) (EbuildMemo.onProfiles s) t :=
  h.zoom (fun _ _ h => ⟨h.left.profiles, h.right.profiles⟩) fun _ _ _ _ h hprofiles =>
    ⟨h.index, ⟨hprofiles.1, h.left.names⟩, hprofiles.2, h.right.names⟩

theorem onNames_agrees {s : Scan NamesMemo α}
    (h : Agrees (fun m m' => NamesCache.Sound r.namesCache t m ∧ NamesCache.Sound r.namesCache t m')
      s t) : Agrees (r.Twins t active) (EbuildMemo.onNames s) t :=
  h.zoom (fun _ _ h => ⟨h.left.names, h.right.names⟩) fun _ _ _ _ h hnames =>
    ⟨h.index, ⟨h.left.profiles, hnames.1⟩, h.right.profiles, hnames.2⟩

/-! ## Questions -/

theorem answer_agrees (q : Question α) : Agrees (r.Twins t active) (r.answer q) t := by
  have hindex : Agrees (r.Twins t active) (EbuildMemo.onIndex (r.index.answer q)) t :=
    onIndex_agrees (Index.answer_agrees q)
  cases q with
  | containing p =>
    refine (onNames_agrees (NamesCache.lookup_yields p).agrees).bind fun categories => ?_
    cases categories with
    | some categories => exact Scan.agrees_pure categories
    | none => exact hindex
  | _ => exact hindex

theorem slotOf_agrees (n : QualifiedName) (v : Version) :
    Agrees (r.Twins t active) (r.slotOf n v) t := by
  refine (onIndex_agrees (Index.metadata_agrees n v)).attempt.bind fun outcome => ?_
  cases outcome with
  | ok m => exact Scan.agrees_pure _
  | error e => exact (Scan.agrees_warn _).bind fun _ => Scan.agrees_pure none

theorem anyAccepts_agrees (masks : List Atom) (n : QualifiedName) (v : Version)
    (repository : String) :
    Agrees (r.Twins t active) (Profile.anyAccepts masks n v repository (r.slotOf n v)) t :=
  .anyM masks fun _ => Atom.acceptsM_agrees (slotOf_agrees n v)

theorem virtualMetadata_agrees (e : VirtualEntry) :
    Agrees (r.Twins t active) (r.virtualMetadata e) t := by
  have hrecord : Agrees (r.Twins t active)
      (EbuildMemo.onIndex (r.index.virtualMetadata e.virtualName e.provider e.version)) t := by
    refine onIndex_agrees ((Index.metadata_agrees e.provider e.version).bind fun m => ?_)
    cases Metadata.forVirtual e.virtualName e.provider e.version m with
    | ok record => exact Scan.agrees_pure record
    | error e => exact Scan.agrees_throw e
  unfold virtualMetadata
  split
  · exact (Scan.agrees_throw _).bind fun _ => hrecord
  · exact hrecord

/-- No question tells twins apart, and they stay twins. -/
theorem reply_agrees {q : EbuildQuestion α} (h : q.selects = false) :
    Agrees (r.Twins t active) (r.reply q) t := by
  cases q with
  | package q => exact answer_agrees q
  | profile q => exact onProfiles_agrees (ProfileChain.answer_agrees h)
  | repositoryMasked n v =>
    exact (onProfiles_agrees ProfileChain.needMasks_yields.agrees).bind fun _ =>
      anyAccepts_agrees _ n v _
  | profileMasked n v =>
    exact (onProfiles_agrees ProfileChain.profile_recalls.agrees).bind fun _ =>
      anyAccepts_agrees _ n v _
  | virtualMetadata e => exact virtualMetadata_agrees e
  | license license => exact fun _ _ hj => ⟨rfl, hj⟩

end EbuildRepository

end PackageCatalog
