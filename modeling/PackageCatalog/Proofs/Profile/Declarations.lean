import PackageCatalog.Proofs.Profile.Active
import PackageCatalog.Proofs.Profile.Contents
import PackageCatalog.Proofs.Tables

/-!
# Declarations of loaded profiles

A profile declares each virtual once: a later line about it replaces an earlier one.

    p is loaded → (p.virtualList.map Prod.fst).Nodup            (load_ensures, nodup_virtualList)

So does every profile that a chain remembers, whatever the files were when it was loaded.
-/

namespace PackageCatalog

open Scan (Ensures Keeps)

/-! ## Loading -/

namespace Profile

variable {σ : Type} {I : σ → Prop} {t : FileTree} {p : Profile}

/-- Each virtual is declared once. -/
def Unambiguous (p : Profile) : Prop := p.virtuals.keys.Nodup

theorem nodup_virtualList (h : p.Unambiguous) : (p.virtualList.map Prod.fst).Nodup :=
  ((List.mergeSort_perm _ _).map Prod.fst).nodup_iff.2 h

theorem mem_virtualList_iff (h : p.Unambiguous) {n : QualifiedName} {atom : Atom} :
    (n, atom) ∈ p.virtualList ↔ p.virtuals.get? n = some atom := by
  unfold virtualList
  rw [List.mem_mergeSort]
  exact (Table.find?_eq_some_iff h).symm

theorem Holds.unambiguous (h : Holds t p) : p.Unambiguous := by
  have hread (lines : List String) (virtuals : Table QualifiedName Atom)
      (hvirtuals : virtuals.keys.Nodup) :
      (lines.foldl readVirtualsLine virtuals).keys.Nodup := by
    induction lines generalizing virtuals with
    | nil => exact hvirtuals
    | cons line lines ih =>
      refine ih _ ?_
      unfold readVirtualsLine
      cases declaration? line with
      | none => exact hvirtuals
      | some declared => exact Table.nodup_keys_insert hvirtuals _ _
  unfold Unambiguous
  rw [h.virtuals]
  exact hread _ ∅ List.nodup_nil

theorem load_ensures (dirs : List String) : Ensures I (load dirs) t Unambiguous := fun j hj =>
  ⟨(isReader_load dirs).keeps_all j hj, fun _ h => (load_holds h).unambiguous⟩

end Profile

/-! ## Remembering -/

namespace ProfileChain

variable {x : ProfileChain} {t : FileTree}

/-- Every profile that is remembered declares each virtual once. -/
structure Unambiguous (memo : ChainMemo) : Prop where
  selected : ∀ p, memo.selected = some p → p.Unambiguous
  available : ∀ list, memo.available = some list → ∀ d p, (d, some p) ∈ list → p.Unambiguous

theorem unambiguous_empty : Unambiguous {} := ⟨nofun, nofun⟩

/-- Remembers a profile that was loaded as the selected one. -/
theorem unambiguous_selecting {p : Profile} (hp : p.Unambiguous) {β : Type} (b : β) :
    Keeps Unambiguous (do
      Scan.modifyMemo fun memo => { memo with selected := some p }
      return b) t :=
  (Scan.keeps_modifyMemo fun _ h => ⟨fun _ hp' => Option.some_inj.1 hp' ▸ hp, h.available⟩).bind
    fun _ => Scan.keeps_pure b

theorem needAvailable_unambiguous : Ensures Unambiguous x.needAvailable t
    fun list => ∀ d p, (d, some p) ∈ list → p.Unambiguous := by
  refine Scan.ensures_memo.bind fun memo hmemo => ?_
  cases havailable : memo.available with
  | some list => exact Scan.ensures_pure (hmemo.available list havailable)
  | none =>
    have hscan : Keeps Unambiguous x.scanAvailable t := isReader_scanAvailable.keeps_all
    refine hscan.ensures.bind fun list _ j hj => ?_
    have hnone : ∀ d p, (d, some p) ∉ list.map fun d => (d, (none : Option Profile)) := by
      intro d p hmem
      obtain ⟨_, -, heq⟩ := List.mem_map.1 hmem
      cases heq
    refine ⟨⟨hj.selected, fun list' hlist' d p hmem => ?_⟩, fun list' hlist' d p hmem => ?_⟩
    · cases hlist'
      exact absurd hmem (hnone d p)
    · cases hlist'
      exact absurd hmem (hnone d p)

theorem profileAt?_unambiguous (k : Nat) : Ensures Unambiguous (x.profileAt? k) t
    fun found => ∀ p ∈ found, p.Unambiguous := by
  refine needAvailable_unambiguous.bind fun list hlist => ?_
  split
  · exact Scan.ensures_pure nofun
  · next d p hk =>
    exact Scan.ensures_pure fun p' hp' =>
      Option.mem_some.1 hp' ▸ hlist d p (List.mem_of_getElem? hk)
  · next d hk =>
    refine (Profile.load_ensures [d.path]).bind fun p hp j hj => ?_
    refine ⟨⟨hj.selected, fun list' hlist' d' p' hmem => ?_⟩, fun found hfound p' hp' => ?_⟩
    · obtain ⟨list₀, hlist₀, rfl⟩ := Option.map_eq_some_iff.1 hlist'
      rcases List.mem_or_eq_of_mem_set hmem with hmem | heq
      · exact hj.available list₀ hlist₀ d' p' hmem
      · cases heq
        exact hp
    · cases hfound
      exact Option.mem_some.1 hp' ▸ hp

theorem profile_unambiguous : Ensures Unambiguous x.profile t Profile.Unambiguous := by
  refine Scan.ensures_memo.bind fun memo hmemo => ?_
  cases hselected : memo.selected with
  | some p => exact Scan.ensures_pure (hmemo.selected p hselected)
  | none =>
    exact (Profile.load_ensures x.configured).bind fun p hp j hj =>
      ⟨(unambiguous_selecting hp p j hj), fun _ h => Except.ok.inj h ▸ hp⟩

theorem activeIn_unambiguous {memo : ChainMemo} {p : Profile} (h : Unambiguous memo)
    (hp : x.activeIn t memo = .ok p) : p.Unambiguous := by
  obtain ⟨hresult, -⟩ := profile_yields (x := x) (t := t) ⟨memo, []⟩ rfl
  exact (profile_unambiguous ⟨memo, []⟩ h).2 p (hresult.trans hp)

theorem maintained_unambiguous : x.Maintained t Unambiguous where
  available := needAvailable_unambiguous.keeps
  profileAt k := (profileAt?_unambiguous k).keeps
  profile := profile_unambiguous.keeps
  besides h havailable hselected := ⟨hselected ▸ h.selected, havailable ▸ h.available⟩

/-! ### Selecting -/

theorem select_unambiguous (k : Nat) : Keeps Unambiguous (x.select k) t := by
  refine ((profileAt?_unambiguous k).bind fun found hfound => ?_).keeps (Q := fun _ => True)
  cases found with
  | none => exact (Scan.keeps_pure false).ensures
  | some p => exact (unambiguous_selecting (hfound p rfl) true).ensures

theorem adopt_unambiguous (d : ProfileDescriptor) : Keeps Unambiguous (adopt d) t :=
  ((Profile.load_ensures [d.path]).bind fun _ hp =>
    (unambiguous_selecting hp ()).ensures).keeps

theorem selectByArch_unambiguous (arch : String) : Keeps Unambiguous (x.selectByArch arch) t := by
  refine (needAvailable_unambiguous.keeps.bind fun _ => Scan.keeps_pure _).bind fun list => ?_
  split
  · exact Scan.keeps_throw _
  · exact (select_unambiguous _).discard.bind fun _ => Scan.keeps_pure _

end ProfileChain

end PackageCatalog
