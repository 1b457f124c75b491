import Mathlib.Data.List.Perm.Subperm
import PackageCatalog.Proofs.Ascending
import PackageCatalog.Proofs.Profile.Calls
import PackageCatalog.Proofs.Tables

/-!
# Mirrors

The URLs of a mirror are shuffled and cut off line by line, and cut off again once all lines are
read.  A line adds no more URLs than the limit, but it adds fewer only if there are no more, so that
the mirror has as many as it may have whatever was drawn:

    the lines add some of the URLs declared on them, and all up to the limit     (exists_foldl_eq)
    what is left of some lines is still there when more lines are read               (drawn_append)
    the mirror has min mirrorLimit n of the n URLs that the files declare for it, and begins with
    min mirrorLimit m of the m URLs that the first of the files declare            (mirrors_capped)

What a line adds comes after what is there, and nothing is cut off at the front.
-/

namespace PackageCatalog.ProfileChain

open Profile (linesIn)
open Scan (Yields)

variable {x : ProfileChain} {t : FileTree} {mirror : String}

/-! ## Lines -/

/-- The URLs that a line declares for a mirror. -/
def declaredOn (mirror line : String) : List String :=
  match Text.words line with
  | [] => []
  | name :: urls => if name = mirror then urls else []

/-- The URLs that some lines declare for a mirror. -/
def declared (mirror : String) (lines : List String) : List String :=
  lines.flatMap (declaredOn mirror)

namespace MirrorDraft

/-- The URLs of a mirror so far. -/
def urlsOf (draft : MirrorDraft) (mirror : String) : List String :=
  (draft.urls.get? mirror).getD []

/-- What is kept of it in the end. -/
def capped (draft : MirrorDraft) : Table String (List String) :=
  ⟨draft.urls.entries.map fun entry => (entry.1, entry.2.take mirrorLimit)⟩

theorem get?_capped (draft : MirrorDraft) (mirror : String) :
    (draft.capped.get? mirror).getD [] = (draft.urlsOf mirror).take mirrorLimit := by
  show (Table.find? mirror (draft.urls.entries.map _)).getD [] = _
  rw [Table.find?_map]
  show ((draft.urls.get? mirror).map _).getD [] = _
  unfold urlsOf
  cases draft.urls.get? mirror <;> simp

theorem keys_capped (draft : MirrorDraft) : draft.capped.keys = draft.urls.keys := by
  show (draft.urls.entries.map _).map Prod.fst = _
  rw [List.map_map]
  rfl

end MirrorDraft

open MirrorDraft (urlsOf capped)

/-- One line adds some of the URLs declared on it, and all if they are no more than the limit. -/
theorem exists_addMirrorLine_eq (x : ProfileChain) (draft : MirrorDraft) (line mirror : String) :
    ∃ added, (x.addMirrorLine draft line).urlsOf mirror = draft.urlsOf mirror ++ added ∧
      added.Subperm (declaredOn mirror line) ∧
      added.length = min mirrorLimit (declaredOn mirror line).length := by
  unfold addMirrorLine declaredOn
  cases Text.words line with
  | nil => exact ⟨[], (List.append_nil _).symm, List.Subperm.refl [], rfl⟩
  | cons name urls =>
    simp only [urlsOf, Table.update, Table.get?_insert]
    by_cases hname : name = mirror
    · subst hname
      have hperm := x.shuffle.perm draft.shuffled urls
      refine ⟨_, by rw [if_pos rfl]; rfl, ?_, ?_⟩
      · rw [if_pos rfl]
        exact (List.take_sublist _ _).subperm.trans hperm.subperm
      · rw [if_pos rfl, List.length_take, hperm.length_eq]
    · refine ⟨[], ?_, ?_, ?_⟩
      · rw [if_neg (Ne.symm hname), List.append_nil]
      · rw [if_neg hname]
      · rw [if_neg hname]
        rfl

/-- Lines add some of the URLs declared on them, and as many as the limit if there are so many. -/
theorem exists_foldl_eq (x : ProfileChain) (lines : List String) (draft : MirrorDraft)
    (mirror : String) :
    ∃ added, (lines.foldl x.addMirrorLine draft).urlsOf mirror = draft.urlsOf mirror ++ added ∧
      added.Subperm (declared mirror lines) ∧
      min mirrorLimit added.length = min mirrorLimit (declared mirror lines).length := by
  induction lines generalizing draft with
  | nil => exact ⟨[], (List.append_nil _).symm, List.Subperm.refl [], rfl⟩
  | cons line lines ih =>
    obtain ⟨first, hfirst, hsub, hlength⟩ := exists_addMirrorLine_eq x draft line mirror
    obtain ⟨added, hadded, hsubs, hlengths⟩ := ih (x.addMirrorLine draft line)
    refine ⟨first ++ added, ?_, List.Subperm.append hsub hsubs, ?_⟩
    · rw [List.foldl_cons, hadded, hfirst, List.append_assoc]
    · have hdeclared : (declared mirror (line :: lines)).length =
          (declaredOn mirror line).length + (declared mirror lines).length := List.length_append
      rw [List.length_append, hdeclared]
      omega

/-- The URLs of a mirror that are left of some lines. -/
def drawn (x : ProfileChain) (lines : List String) (mirror : String) : List String :=
  ((lines.foldl x.addMirrorLine {}).urlsOf mirror).take mirrorLimit

theorem drawn_subperm (x : ProfileChain) (lines : List String) (mirror : String) :
    (x.drawn lines mirror).Subperm (declared mirror lines) := by
  obtain ⟨added, hadded, hsub, -⟩ := exists_foldl_eq x lines {} mirror
  unfold drawn
  rw [hadded]
  exact (List.take_sublist _ _).subperm.trans hsub

theorem length_drawn (x : ProfileChain) (lines : List String) (mirror : String) :
    (x.drawn lines mirror).length = min mirrorLimit (declared mirror lines).length := by
  obtain ⟨added, hadded, -, hlength⟩ := exists_foldl_eq x lines {} mirror
  unfold drawn
  rw [hadded, List.length_take]
  exact hlength

/-- What is left of some lines is still there when more lines are read; the rest is of those. -/
theorem drawn_append (x : ProfileChain) (first later : List String) (mirror : String) :
    ∃ rest, x.drawn (first ++ later) mirror = x.drawn first mirror ++ rest ∧
      rest.Subperm (declared mirror later) := by
  obtain ⟨more, hmore, hsub, -⟩ := exists_foldl_eq x later (first.foldl x.addMirrorLine {}) mirror
  unfold drawn
  rw [List.foldl_append, hmore, List.take_append]
  exact ⟨_, rfl, (List.take_sublist _ _).subperm.trans hsub⟩

theorem mem_keys_addMirrorLine_iff (x : ProfileChain) (draft : MirrorDraft) (line name : String) :
    name ∈ (x.addMirrorLine draft line).urls.keys ↔
      name ∈ draft.urls.keys ∨ (Text.words line).head? = some name := by
  unfold addMirrorLine
  cases Text.words line with
  | nil => simp
  | cons first urls =>
    simp only [Table.update, Table.keys_insert, List.head?_cons, Option.some_inj]
    rw [Profile.mem_ite_append_iff]
    exact or_congr_right eq_comm

theorem mem_keys_foldl_iff (x : ProfileChain) (lines : List String) (draft : MirrorDraft)
    (name : String) : name ∈ (lines.foldl x.addMirrorLine draft).urls.keys ↔
      name ∈ draft.urls.keys ∨ ∃ line ∈ lines, (Text.words line).head? = some name := by
  induction lines generalizing draft with
  | nil => simp
  | cons line lines ih =>
    rw [List.foldl_cons, ih, mem_keys_addMirrorLine_iff, or_assoc, List.exists_mem_cons_iff]

/-! ## Mirrors that are found -/

/-- The lines of the mirrors files, all read one after the other. -/
def mirrorDraft (x : ProfileChain) (t : FileTree) : MirrorDraft :=
  (linesIn t "thirdpartymirrors" x.profilesDirs).foldl x.addMirrorLine {}

theorem found_needMirrors (h : Readable t "thirdpartymirrors" x.profilesDirs) :
    x.needMirrors.found t = .ok (x.mirrorDraft t).capped := by
  obtain ⟨present, j, hj⟩ := foldEach_on x.addMirrorLine
    (fun _ draft line => Scan.reads_pure (x.addMirrorLine draft line)) {} h
  show (x.needMirrors.on t ⟨{}, []⟩).1 = _
  unfold needMirrors
  rw [Scan.on_bind_of_ok (Scan.on_memo t _)]
  cases present <;> exact congrArg Prod.fst (Scan.on_bind_of_ok hj _)

/-- Whatever was asked before, the answer is that of the files. -/
theorem needMirrors_on {j : Journal ChainMemo} (hj : x.Reached t j.memo)
    (h : Readable t "thirdpartymirrors" x.profilesDirs) :
    (x.needMirrors.on t j).1 = .ok (x.mirrorDraft t).capped := by
  obtain ⟨starts, hrecalls⟩ := hj.sound
  exact (needMirrors_yields j hrecalls).1.trans (found_needMirrors h)

/-- A mirror has as many URLs as it may have of those that the files declare for it.  It begins with
as many as it may have of those that the first directories declare, however many these are, and has
none of a later directory if they declare enough. -/
theorem mirrors_capped {j : Journal ChainMemo} (hj : x.Reached t j.memo)
    (hreadable : Readable t "thirdpartymirrors" x.profilesDirs) (mirror : String) :
    (∃ urls, ((x.mirrors mirror).on t j).1 = .ok urls ∧
      urls.Subperm (declared mirror (linesIn t "thirdpartymirrors" x.profilesDirs)) ∧
      urls.length = min mirrorLimit
        (declared mirror (linesIn t "thirdpartymirrors" x.profilesDirs)).length ∧
      ∀ first later, x.profilesDirs = first ++ later →
        (∃ kept rest, urls = kept ++ rest ∧
          kept.Subperm (declared mirror (linesIn t "thirdpartymirrors" first)) ∧
          kept.length = min mirrorLimit
            (declared mirror (linesIn t "thirdpartymirrors" first)).length ∧
          rest.Subperm (declared mirror (linesIn t "thirdpartymirrors" later))) ∧
        (mirrorLimit ≤ (declared mirror (linesIn t "thirdpartymirrors" first)).length →
          urls.Subperm (declared mirror (linesIn t "thirdpartymirrors" first)))) ∧
    ∃ names, (x.mirrorNames.on t j).1 = .ok names ∧ Ascending.Sorted names ∧
      ∀ name, name ∈ names ↔ ∃ line ∈ linesIn t "thirdpartymirrors" x.profilesDirs,
        (Text.words line).head? = some name := by
  have hon : x.needMirrors.on t j = (.ok (x.mirrorDraft t).capped, _) :=
    Prod.ext (needMirrors_on hj hreadable) rfl
  constructor
  · refine ⟨x.drawn (linesIn t "thirdpartymirrors" x.profilesDirs) mirror, ?_,
      drawn_subperm x _ mirror, length_drawn x _ mirror, ?_⟩
    · refine (congrArg Prod.fst (Scan.on_bind_of_ok hon _)).trans ?_
      exact congrArg Except.ok (MirrorDraft.get?_capped _ mirror)
    · intro first later hdirs
      have hlines : linesIn t "thirdpartymirrors" x.profilesDirs =
          linesIn t "thirdpartymirrors" first ++ linesIn t "thirdpartymirrors" later := by
        rw [hdirs]
        exact List.flatMap_append
      rw [hlines]
      have hkept := drawn_subperm x (linesIn t "thirdpartymirrors" first) mirror
      have hlength := length_drawn x (linesIn t "thirdpartymirrors" first) mirror
      obtain ⟨rest, hurls, hrest⟩ := drawn_append x (linesIn t "thirdpartymirrors" first)
        (linesIn t "thirdpartymirrors" later) mirror
      refine ⟨⟨_, rest, hurls, hkept, hlength, hrest⟩, fun henough => ?_⟩
      have hall := congrArg List.length hurls
      rw [length_drawn, List.length_append, hlength] at hall
      obtain rfl : rest = [] := List.eq_nil_of_length_eq_zero (by omega)
      rw [hurls, List.append_nil]
      exact hkept
  · refine ⟨Ascending.ofList (x.mirrorDraft t).capped.keys,
      congrArg Prod.fst (Scan.on_bind_of_ok hon _), Ascending.sorted_ofList _, fun name => ?_⟩
    rw [Ascending.mem_ofList, MirrorDraft.keys_capped]
    exact (mem_keys_foldl_iff x _ {} name).trans (or_iff_right nofun)

/-- Mirrors of two directories.  The first one declares as many URLs of `gnu` as are kept, and one
of `small`. -/
def mirrorsTree : FileTree :=
  ⟨⟨[(["p"], .directory),
    (["p", "thirdpartymirrors"], .text "# main\ngnu a b c\nsmall s\ngnu d e f\n"),
    (["q"], .directory),
    (["q", "thirdpartymirrors"], .text "gnu g h\nsmall t u v w x y\n")]⟩⟩

/-- Every list is turned around. -/
def mirrorsChain : ProfileChain :=
  ⟨"main", ["/p", "/q"], [], ⟨fun _ urls => urls.reverse, fun _ urls => urls.reverse_perm⟩⟩

theorem mirrors_capped_mirrorsTree :
    Readable mirrorsTree "thirdpartymirrors" mirrorsChain.profilesDirs ∧
      mirrorLimit ≤ (declared "gnu" (linesIn mirrorsTree "thirdpartymirrors" ["/p"])).length ∧
      (∃ urls, ((mirrorsChain.mirrors "gnu").on mirrorsTree ⟨{}, []⟩).1 = .ok urls ∧
        urls.Subperm ["a", "b", "c", "d", "e", "f"] ∧ urls.length = 6) ∧
      (∃ urls, ((mirrorsChain.mirrors "small").on mirrorsTree ⟨{}, []⟩).1 = .ok urls ∧
        urls.length = 6 ∧ ∃ rest, urls = "s" :: rest ∧
          rest.Subperm ["t", "u", "v", "w", "x", "y"]) ∧
      ∃ names, (mirrorsChain.mirrorNames.on mirrorsTree ⟨{}, []⟩).1 = .ok names ∧
        Ascending.Sorted names ∧ "small" ∈ names := by
  have hreadable : Readable mirrorsTree "thirdpartymirrors" mirrorsChain.profilesDirs := by
    unfold Readable
    decide +kernel
  have hp : linesIn mirrorsTree "thirdpartymirrors" ["/p"] =
      ["gnu a b c", "small s", "gnu d e f"] := by decide +kernel
  have hq : linesIn mirrorsTree "thirdpartymirrors" ["/q"] =
      ["gnu g h", "small t u v w x y"] := by decide +kernel
  have hlines : linesIn mirrorsTree "thirdpartymirrors" mirrorsChain.profilesDirs =
      ["gnu a b c", "small s", "gnu d e f", "gnu g h", "small t u v w x y"] := by decide +kernel
  obtain ⟨⟨gnu, hgnu, -, hgnuLength, hgnuFirst⟩, names, hnames, hsorted, hmem⟩ :=
    @mirrors_capped mirrorsChain mirrorsTree ⟨{}, []⟩ .start hreadable "gnu"
  obtain ⟨⟨small, hsmall, -, hsmallLength, hsmallFirst⟩, -⟩ :=
    @mirrors_capped mirrorsChain mirrorsTree ⟨{}, []⟩ .start hreadable "small"
  obtain ⟨-, hgnuSub⟩ := hgnuFirst ["/p"] ["/q"] rfl
  obtain ⟨⟨kept, rest, hkeptRest, hkept, hkeptLength, hrest⟩, -⟩ := hsmallFirst ["/p"] ["/q"] rfl
  rw [hp] at hgnuSub hkept hkeptLength ⊢
  rw [hq] at hrest
  rw [hlines] at hgnuLength hsmallLength
  -- the one URL of the first directory is kept, though the second alone has as many as may be kept
  obtain rfl : kept = ["s"] := List.perm_singleton.1 (hkept.perm_of_length_le hkeptLength.ge)
  exact ⟨hreadable, by decide, ⟨gnu, hgnu, hgnuSub (by decide), hgnuLength⟩,
    ⟨small, hsmall, hsmallLength, rest, hkeptRest, hrest⟩, names, hnames, hsorted,
    (hmem "small").2 ⟨"small s", by rw [hlines]; decide, by decide⟩⟩

end PackageCatalog.ProfileChain
