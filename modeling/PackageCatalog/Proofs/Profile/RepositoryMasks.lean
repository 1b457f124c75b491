import PackageCatalog.Proofs.Profile.Calls
import PackageCatalog.Proofs.Profile.Overriding

/-!
# Masks of a whole repository

The masks of a repository are filed under the packages they name, and only those of one package are
tried when it is asked for.  What stands under a package are the atoms of its lines, in the order of
the files; the lines that are not filed, and those that are filed under other packages, accept no
version of it:

    what is filed under n is lines.filterMap (maskFor n)                     (bucket_foldl_fileMask)
    a version of n is masked ↔ the atom of some line accepts it               (repositoryMasked_iff)
-/

namespace PackageCatalog.ProfileChain

open Profile (linesIn orKeep parseMask_eq_ok_iff parseMask_of_accepts)
open Scan (Yields)

variable {x : ProfileChain} {t : FileTree} {n : QualifiedName}

/-! ## Filing -/

/-- Files the mask on a line, if it is one, under the package that it names. -/
def fileMask (masks : Table QualifiedName (List Atom)) (line : String) :
    Table QualifiedName (List Atom) :=
  orKeep masks ((parseMask line).map fun mask => masks.update mask.1 [] (· ++ [mask.2]))

/-- The mask of a package on a line. -/
def maskFor (n : QualifiedName) (line : String) : Option Atom :=
  (parseMask line).toOption.bind fun mask => if n = mask.1 then some mask.2 else none

/-- What is filed under a package. -/
def bucket (masks : Table QualifiedName (List Atom)) (n : QualifiedName) : List Atom :=
  (masks.get? n).getD []

theorem maskFor_eq_some_iff {line : String} {atom : Atom} :
    maskFor n line = some atom ↔ parseMask line = .ok (n, atom) := by
  unfold maskFor
  cases parseMask line with
  | error e => exact ⟨nofun, nofun⟩
  | ok mask =>
    obtain ⟨n', atom'⟩ := mask
    show (if n = n' then some atom' else none) = some atom ↔ _
    split
    · next hn =>
      subst hn
      simp
    · next hn =>
      simp [Ne.symm hn]

theorem bucket_fileMask (masks : Table QualifiedName (List Atom)) (line : String)
    (n : QualifiedName) :
    bucket (fileMask masks line) n = bucket masks n ++ (maskFor n line).toList := by
  unfold fileMask maskFor
  cases parseMask line with
  | error e => exact (List.append_nil _).symm
  | ok mask =>
    obtain ⟨n', atom⟩ := mask
    show bucket (masks.update n' [] (· ++ [atom])) n =
      bucket masks n ++ (if n = n' then some atom else none).toList
    unfold bucket Table.update
    rw [Table.get?_insert]
    by_cases hn : n = n'
    · subst hn
      simp
    · simp [hn]

theorem bucket_foldl_fileMask (lines : List String) (n : QualifiedName) :
    bucket (lines.foldl fileMask ∅) n = lines.filterMap (maskFor n) := by
  induction lines using List.reverseRecOn with
  | nil => rfl
  | append_singleton lines line ih =>
    rw [List.foldl_append, List.foldl_cons, List.foldl_nil, bucket_fileMask, ih,
      List.filterMap_append]
    cases hline : maskFor n line <;> simp [hline]

/-! ## Masks that are found -/

theorem found_needMasks (h : Readable t "package.mask" x.profilesDirs) :
    x.needMasks.found t = .ok ((linesIn t "package.mask" x.profilesDirs).foldl fileMask ∅) := by
  obtain ⟨present, j, hj⟩ :=
    foldEach_on fileMask (fun path masks line => Profile.reads_orWarn path masks _) ∅ h
  show (x.needMasks.on t ⟨{}, []⟩).1 = _
  unfold needMasks
  rw [Scan.on_bind_of_ok (Scan.on_memo t _)]
  exact congrArg Prod.fst (Scan.on_bind_of_ok hj _)

/-- No line that is left out could have accepted the package. -/
theorem any_bucket_iff (lines : List String) {v : Version} {repository : String}
    {slot : Option Slot} :
    ((bucket (lines.foldl fileMask ∅) n).any fun mask => mask.accepts n v repository slot) = true ↔
      ∃ line ∈ lines, ∃ atom, Atom.parse line = .ok atom ∧
        atom.accepts n v repository slot = true := by
  simp only [bucket_foldl_fileMask, List.any_eq_true, List.mem_filterMap, maskFor_eq_some_iff]
  constructor
  · rintro ⟨atom, ⟨line, hline, hmask⟩, haccepts⟩
    exact ⟨line, hline, atom, (parseMask_eq_ok_iff.1 hmask).1, haccepts⟩
  · rintro ⟨line, hline, atom, hparse, haccepts⟩
    exact ⟨atom, ⟨line, hline, parseMask_of_accepts hparse haccepts⟩, haccepts⟩

/-- A version is masked if the atom of some line accepts it, whatever else the files hold. -/
theorem repositoryMasked_iff {σ : Type} {I : σ → Prop} {part : σ → ChainMemo}
    {putBack : σ → ChainMemo → σ} {slotOf : Scan σ (Option Slot)} {slot : Option Slot}
    (hpart : ∀ memo, I memo → x.Reached t (part memo))
    (hback : ∀ memo new, I memo → x.Reached t new → I (putBack memo new))
    (hslot : Yields I slotOf t (.ok slot)) (hreadable : Readable t "package.mask" x.profilesDirs)
    (n : QualifiedName) (v : Version) :
    ∃ answer, Yields I (x.repositoryMasked (Scan.zoom part putBack) n v slotOf) t (.ok answer) ∧
      (answer = true ↔ ∃ line ∈ linesIn t "package.mask" x.profilesDirs, ∃ atom,
        Atom.parse line = .ok atom ∧ atom.accepts n v x.repository slot = true) := by
  have hmasks : Yields (x.Reached t) x.needMasks t
      (.ok ((linesIn t "package.mask" x.profilesDirs).foldl fileMask ∅)) := fun j hj => by
    obtain ⟨starts, hrecalls⟩ := hj.sound
    exact ⟨(needMasks_yields j hrecalls).1.trans (found_needMasks hreadable), .masked hj⟩
  exact ⟨_, (hmasks.zoom hpart hback).bind_ok
    (Profile.anyAccepts_yields hslot _ n v x.repository), any_bucket_iff _⟩

/-- Two `package.mask` files with a blocker, a line after a minus sign, a name that ends in a
version and masks; a third directory has none. -/
def maskingTree : FileTree :=
  ⟨⟨[(["p"], .directory),
    (["p", "package.mask"], .text "# old\n!app/vi\n->=app/vi-2:3\napp/vi-1-2\n"),
    (["q"], .directory), (["q", "package.mask"], .text "app/ed\n  >=app/vi-2:3  \n"),
    (["r"], .directory)]⟩⟩

def maskingChain : ProfileChain := ⟨"main", ["/p", "/q", "/r"], [], Shuffle.none⟩

theorem repositoryMasked_maskingTree :
    let vi : QualifiedName := ⟨⟨"app", by decide⟩, ⟨"vi", by decide⟩⟩
    let v : Version := ⟨.ofNat 2, [], none, [], none⟩
    Readable maskingTree "package.mask" maskingChain.profilesDirs ∧
      linesIn maskingTree "package.mask" maskingChain.profilesDirs =
        ["!app/vi", "->=app/vi-2:3", "app/vi-1-2", "app/ed", ">=app/vi-2:3"] ∧
      Yields (maskingChain.Reached maskingTree) (maskingChain.repositoryMasked
        (Scan.zoom id fun _ new => new) vi v (pure (some ⟨"3", none⟩))) maskingTree (.ok true) := by
  intro vi v
  have hreadable : Readable maskingTree "package.mask" maskingChain.profilesDirs := by
    unfold Readable
    decide +kernel
  have hlines : linesIn maskingTree "package.mask" maskingChain.profilesDirs =
      ["!app/vi", "->=app/vi-2:3", "app/vi-1-2", "app/ed", ">=app/vi-2:3"] := by decide +kernel
  have hparse : (Atom.parse ">=app/vi-2:3").toOption.any
      (·.accepts vi v "main" (some ⟨"3", none⟩)) = true := by decide +kernel
  obtain ⟨atom, hatom, haccepts⟩ := (Option.any_eq_true _ _).1 hparse
  obtain ⟨answer, hyields, hanswer⟩ := @repositoryMasked_iff _ _ _
    (maskingChain.Reached maskingTree) id (fun _ new => new) _ _ (fun _ h => h)
    (fun _ _ _ h => h) (Scan.yields_pure (some ⟨"3", none⟩)) hreadable vi v
  have htrue : answer = true := hanswer.2 ⟨">=app/vi-2:3", by rw [hlines]; simp, atom,
    Scan.toOption_eq_some_iff.1 hatom, haccepts⟩
  exact ⟨hreadable, hlines, htrue ▸ hyields⟩

end PackageCatalog.ProfileChain
