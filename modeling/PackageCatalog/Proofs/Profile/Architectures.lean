import PackageCatalog.Proofs.Profile.Calls
import PackageCatalog.Proofs.Profile.Overriding

/-!
# Flags of foreign architectures

A flag is masked by the active profile, or because it names an architecture that is not the one of
the profile.  The flags of a profile do not belong there, but a foreign architecture that is one of
them is not masked:

    masked ↔ Stands flag.text (lines of `use.mask`) ∨ x.Foreign t p flag ∧ flag.text ∉ p's USE
    that is as it should be ↔ ¬ (flag is foreign, it is in p's USE, and `use.mask` leaves it alone)
                                                                                    (useMask_iff)
-/

namespace PackageCatalog.ProfileChain

open Profile (Stands linesIn orKeep)

variable {x : ProfileChain} {t : FileTree} {p : Profile} {flag : UseFlag}

/-! ## Architectures -/

/-- One line of an `arch.list` file. -/
def readArchLine (flags : List UseFlag) (line : String) : List UseFlag :=
  orKeep flags <| (UseFlag.parse line).map fun flag =>
    if flag ∈ flags then flags else flags ++ [flag]

theorem mem_foldl_readArchLine_iff (lines : List String) (flag : UseFlag) :
    flag ∈ lines.foldl readArchLine [] ↔ flag.text ∈ lines := by
  induction lines using List.reverseRecOn with
  | nil => exact ⟨nofun, nofun⟩
  | append_singleton lines line ih =>
    rw [List.foldl_append, List.foldl_cons, List.foldl_nil, List.mem_append, List.mem_singleton,
      ← ih]
    unfold readArchLine
    cases hparse : UseFlag.parse line with
    | ok added =>
      obtain rfl := UseFlag.parse_eq_ok_iff.1 hparse
      show flag ∈ (if added ∈ _ then _ else _ ++ [added]) ↔ _
      rw [Profile.mem_ite_append_iff, ← UseFlag.text_inj]
    | error e => exact (or_iff_left (flag.text_ne_of_parse hparse)).symm

/-- The architectures, if all of the files can be read. -/
theorem found_archFlags (x : ProfileChain) (t : FileTree) :
    ((x.archFlags.found t).isOk = true ↔ Readable t "arch.list" x.profilesDirs) ∧
      ∀ flags, x.archFlags.found t = .ok flags →
        flags = (linesIn t "arch.list" x.profilesDirs).foldl readArchLine [] := by
  obtain ⟨r, hread, hok, hfold⟩ := @reads_foldEach x t _ _ id "arch.list" _ readArchLine
    (fun path flags line => Profile.reads_orWarn path flags _) []
  obtain ⟨j, hj, -⟩ := hread.on_eq ⟨{}, []⟩
  have hfound : x.archFlags.found t = r.map Prod.fst := by
    show (x.archFlags.on t ⟨{}, []⟩).1 = _
    unfold archFlags
    rw [Scan.on_bind_of_ok (Scan.on_memo t _)]
    match r, hj with
    | .error e, hj => exact congrArg Prod.fst (Scan.on_bind_of_error hj _)
    | .ok (flags, true), hj => exact congrArg Prod.fst (Scan.on_bind_of_ok hj _)
    | .ok (flags, false), hj => exact congrArg Prod.fst (Scan.on_bind_of_ok hj _)
  rw [hfound]
  constructor
  · rw [← hok]
    cases r <;> rfl
  · intro flags hflags
    obtain ⟨⟨flags', present⟩, rfl, rfl⟩ := Scan.map_eq_ok_iff.1 hflags
    exact hfold flags' present rfl

/-! ## Masks -/

/-- The flag names an architecture, and not the one of the profile. -/
def Foreign (x : ProfileChain) (t : FileTree) (p : Profile) (flag : UseFlag) : Prop :=
  flag.text ∈ linesIn t "arch.list" x.profilesDirs ∧ p.arch ≠ some flag.text

/-- What a mask of a flag should be. -/
def ShouldMask (x : ProfileChain) (t : FileTree) (p : Profile) (flag : UseFlag) : Prop :=
  Stands flag.text (linesIn t "use.mask" p.dirs) ∨ x.Foreign t p flag

/-- The answer once the active profile and the architectures are found. -/
theorem useMask_on {j : Journal ChainMemo} (hj : x.Reached t j.memo)
    (hp : (x.profile.on t j).1 = .ok p) : ((x.useMask flag).on t j).1 =
      if p.useMasked flag then .ok true
      else (x.archFlags.found t).map fun flags => flag ∈ flags && !p.useEnabled flag := by
  obtain ⟨starts, hrecalls⟩ := hj.sound
  obtain ⟨j', hj', hrecalls'⟩ := profile_recalls.on_eq hrecalls
  rw [show loadedIn t starts = .ok p from (congrArg Prod.fst hj').symm.trans hp] at hj'
  unfold useMask
  rw [Scan.on_bind_of_ok hj']
  split
  · rfl
  · obtain ⟨j'', hj'', -⟩ := archFlags_yields.on_eq hrecalls'
    cases hfound : x.archFlags.found t with
    | error e =>
      rw [hfound] at hj''
      exact congrArg Prod.fst (Scan.on_bind_of_error hj'' _)
    | ok flags =>
      rw [hfound] at hj''
      exact congrArg Prod.fst (Scan.on_bind_of_ok hj'' _)

theorem useMask_iff {j : Journal ChainMemo} (hj : x.Reached t j.memo)
    (hp : (x.profile.on t j).1 = .ok p) (flag : UseFlag) :
    (Readable t "arch.list" x.profilesDirs →
      ∃ answer, ((x.useMask flag).on t j).1 = .ok answer) ∧
    ∀ answer, ((x.useMask flag).on t j).1 = .ok answer →
      (answer = true ↔ Stands flag.text (linesIn t "use.mask" p.dirs) ∨
        x.Foreign t p flag ∧ flag.text ∉ p.incremental "USE") ∧
      ((answer = true ↔ x.ShouldMask t p flag) ↔
        ¬ (x.Foreign t p flag ∧ flag.text ∈ p.incremental "USE" ∧
          ¬ Stands flag.text (linesIn t "use.mask" p.dirs))) := by
  have hmasked : p.useMasked flag = true ↔ Stands flag.text (linesIn t "use.mask" p.dirs) := by
    rw [← Profile.mem_foldl_readFlagLine_iff, ← (hj.holds hp).useMask]
    exact decide_eq_true_iff
  have henabled : p.useEnabled flag = true ↔
      flag.text ∈ p.incremental "USE" ∨ p.arch = some flag.text := by simp [Profile.useEnabled]
  rw [useMask_on hj hp]
  by_cases hmask : p.useMasked flag = true
  · rw [if_pos hmask]
    have hstands := hmasked.1 hmask
    refine ⟨fun _ => ⟨true, rfl⟩, fun answer h => ?_⟩
    cases h
    simp [ShouldMask, hstands]
  · rw [if_neg hmask]
    have hstands := mt hmasked.2 hmask
    obtain ⟨hok, hlines⟩ := found_archFlags x t
    refine ⟨fun hreadable => ?_, fun answer h => ?_⟩
    · cases hfound : x.archFlags.found t with
      | error e => cases (hfound ▸ hok.2 hreadable : (Except.error e).isOk = true)
      | ok flags => exact ⟨_, rfl⟩
    · obtain ⟨flags, hflags, rfl⟩ := Scan.map_eq_ok_iff.1 h
      have hanswer : (flag ∈ flags && !p.useEnabled flag) = true ↔
          x.Foreign t p flag ∧ flag.text ∉ p.incremental "USE" := by
        unfold Foreign
        rw [← mem_foldl_readArchLine_iff, ← hlines flags hflags, Bool.and_eq_true,
          decide_eq_true_iff, Bool.not_eq_true', ← Bool.not_eq_true, henabled, not_or]
        exact ⟨fun ⟨hline, huse, harch⟩ => ⟨⟨hline, harch⟩, huse⟩,
          fun ⟨⟨hline, harch⟩, huse⟩ => ⟨hline, huse, harch⟩⟩
      rw [hanswer]
      unfold ShouldMask
      rw [or_iff_right hstands, or_iff_right hstands, and_iff_left hstands, and_iff_left_iff_imp,
        not_and]
      exact ⟨Iff.rfl, Iff.rfl⟩

/-- A profile for amd64 that has x86 among its flags. -/
def foreignTree : FileTree :=
  ⟨⟨[(["p"], .directory), (["p", "arch.list"], .text "amd64\nppc\nx86\n"), (["p", "d"], .directory),
    (["p", "d", "make.defaults"], .text "ARCH=amd64\nUSE=\"foo x86\"\n")]⟩⟩

def foreignChain : ProfileChain := ⟨"main", ["/p"], ["/p/d"], Shuffle.none⟩

/-- The start of all calls. -/
def foreignStart : Journal ChainMemo := ⟨{}, []⟩

/-- What decides about the flags of architectures. -/
theorem profile_foreignTree : ∃ p, (foreignChain.profile.on foreignTree foreignStart).1 = .ok p ∧
    p.arch = some "amd64" ∧ p.incremental "USE" = ["foo", "x86"] := by
  have hprofile : ((foreignChain.profile.on foreignTree foreignStart).1.map fun p =>
      (p.arch, p.incremental "USE")).toOption = some (some "amd64", ["foo", "x86"]) := by
    decide +kernel
  obtain ⟨p, hp, heq⟩ := Scan.map_eq_ok_iff.1 (Scan.toOption_eq_some_iff.1 hprofile)
  exact ⟨p, hp, (Prod.mk.inj heq).1, (Prod.mk.inj heq).2⟩

theorem archLines_foreignTree :
    linesIn foreignTree "arch.list" foreignChain.profilesDirs = ["amd64", "ppc", "x86"] := by
  decide +kernel

/-- ppc is masked, and so it should be. -/
theorem useMask_iff_foreignTree :
    ∃ p, (foreignChain.profile.on foreignTree foreignStart).1 = .ok p ∧
      foreignChain.Reached foreignTree foreignStart.memo ∧
      ((foreignChain.useMask ⟨"ppc", by decide⟩).on foreignTree foreignStart).1 = .ok true ∧
      foreignChain.ShouldMask foreignTree p ⟨"ppc", by decide⟩ := by
  obtain ⟨p, hp, -, huse⟩ := profile_foreignTree
  have hanswer : ((foreignChain.useMask ⟨"ppc", by decide⟩).on foreignTree
      foreignStart).1.toOption = some true := by decide +kernel
  have htrue := Scan.toOption_eq_some_iff.1 hanswer
  obtain ⟨-, hiff⟩ := (useMask_iff .start hp ⟨"ppc", by decide⟩).2 true htrue
  have hunused : "ppc" ∉ p.incremental "USE" := by
    rw [huse]
    decide
  exact ⟨p, hp, .start, htrue, (hiff.2 fun h => hunused h.2.1).1 rfl⟩

/-- x86 is not masked, but it should be. -/
theorem not_useMask_foreignTree :
    ∃ p, (foreignChain.profile.on foreignTree foreignStart).1 = .ok p ∧
      ((foreignChain.useMask ⟨"x86", by decide⟩).on foreignTree foreignStart).1 = .ok false ∧
      foreignChain.ShouldMask foreignTree p ⟨"x86", by decide⟩ := by
  obtain ⟨p, hp, harch, -⟩ := profile_foreignTree
  have hanswer : ((foreignChain.useMask ⟨"x86", by decide⟩).on foreignTree
      foreignStart).1.toOption = some false := by decide +kernel
  refine ⟨p, hp, Scan.toOption_eq_some_iff.1 hanswer, .inr ⟨?_, ?_⟩⟩
  · rw [archLines_foreignTree]
    decide
  · rw [harch]
    decide

end PackageCatalog.ProfileChain
