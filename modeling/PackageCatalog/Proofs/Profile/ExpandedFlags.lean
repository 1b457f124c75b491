import PackageCatalog.Proofs.Ascending
import PackageCatalog.Proofs.Files.Paths
import PackageCatalog.Proofs.Name.Versioned
import PackageCatalog.Proofs.Profile.Active
import PackageCatalog.Proofs.Text.Lower

/-!
# Flags of expanded variables

A value of a variable in `USE_EXPAND` stands for the flag that is made of both in small letters, and
the flag is taken apart into the variable and the value again.  What fits an earlier variable in the
list is not looked for in a later one, so that this goes wrong where one variable is another one
that goes on after an underscore:

    the flag of a variable and a value is taken apart into these, if no earlier variable fits it
    a flag that fits no variable is none of an expanded variable    (splitExpanded_expandedFlag)
-/

namespace PackageCatalog.ProfileChain

variable {x : ProfileChain} {t : FileTree} {flag name value : String} {names : List String}

/-! ## Taking a flag apart -/

/-- The flag is this variable in small letters, an underscore, and more. -/
def Fits (flag name : String) : Prop :=
  ∃ value, value ≠ "" ∧ flag = Text.lower name ++ "_" ++ value

theorem valueOf?_eq_some_iff :
    valueOf? flag name = some value ↔ value ≠ "" ∧ flag = Text.lower name ++ "_" ++ value := by
  have hcut : flag = Text.lower name ++ "_" ++ value ↔
      flag.toList = (Text.lower name ++ "_").toList ++ value.toList := by
    rw [← String.toList_inj, String.toList_append]
  have hempty : value ≠ "" ↔ value.toList ≠ [] := not_congr String.toList_eq_nil_iff.symm
  unfold valueOf?
  rw [hcut, hempty, ← Text.dropWord_eq_some_iff]
  match Text.dropWord (Text.lower name ++ "_").toList flag.toList with
  | none => exact ⟨nofun, fun h => nomatch h.2⟩
  | some [] => exact ⟨nofun, fun h => absurd (Option.some.inj h.2).symm h.1⟩
  | some (c :: r) =>
    show some (String.ofList (c :: r)) = some value ↔ _
    rw [Option.some_inj, Option.some_inj, ← String.toList_inj, String.toList_ofList]
    exact ⟨fun h => ⟨h ▸ nofun, h⟩, And.right⟩

theorem valueOf?_eq_none_iff : valueOf? flag name = none ↔ ¬ Fits flag name := by
  simp only [Option.eq_none_iff_forall_ne_some, Ne, valueOf?_eq_some_iff]
  exact not_exists.symm

theorem splitExpanded?_eq_none (h : ∀ name ∈ names, ¬ Fits flag name) :
    splitExpanded? names flag = none := by
  refine List.findSome?_eq_none_iff.2 fun name hname => ?_
  rw [valueOf?_eq_none_iff.2 (h name hname)]
  rfl

theorem splitExpanded?_eq_some (hname : name ∈ names) (hvalue : valueOf? flag name = some value)
    (hearlier : ∀ earlier ∈ names.takeWhile (· != name), ¬ Fits flag earlier) :
    splitExpanded? names flag = some (name, value) := by
  unfold splitExpanded?
  induction names with
  | nil => cases hname
  | cons first names ih =>
    rw [List.findSome?_cons]
    by_cases hfirst : first = name
    · subst hfirst
      rw [hvalue]
      rfl
    · rw [List.takeWhile_cons_of_pos (by simpa using hfirst), List.forall_mem_cons] at hearlier
      rw [valueOf?_eq_none_iff.2 hearlier.1]
      exact ih ((List.mem_cons.1 hname).resolve_left (Ne.symm hfirst)) hearlier.2

/-! ## Building a flag -/

theorem toNat_lt_of_mem_flag (f : UseFlag) : ∀ c ∈ f.text.toList, c.toNat < 0x80 := by
  have halphanum {c : Char} (hc : c.isAlphanum = true) : c.toNat < 0x80 := by
    have := toNat_of_isAlphanum hc
    omega
  refine forall_mem_of_isNameOf (fun c hc => halphanum hc) (fun c hc => ?_) f.valid
  rcases Bool.or_eq_true_iff.1 hc with hc | hc
  · exact halphanum hc
  · simp only [decide_eq_true_eq, List.mem_cons, List.not_mem_nil, or_false] at hc
    rcases hc with rfl | rfl | rfl | rfl <;> decide

/-- The small letters of what a variable and a value stand for are its own. -/
theorem lower_eq_of_text_eq {f : UseFlag} (h : f.text = expandedFlag name value) :
    Text.lower f.text = f.text := by
  have hascii := toNat_lt_of_mem_flag f
  rw [h] at hascii ⊢
  exact Text.lower_lower hascii

theorem valueOf?_expandedFlag (hvalue : value ≠ "") :
    valueOf? (expandedFlag name value) name = some (Text.lower value) :=
  valueOf?_eq_some_iff.2
    ⟨mt Text.lower_eq_empty_iff.1 hvalue, Text.lower_append_underscore name value⟩

/-! ## Flags that are built -/

/-- One more text that stands for a flag, if it is one. -/
def addFlag (flags : List UseFlag) (text : String) : List UseFlag :=
  match UseFlag.parse text with
  | .ok flag => Ascending.insert flag flags
  | .error _ => flags

theorem mem_foldl_addFlag_iff {f : UseFlag} (texts : List String) (flags : List UseFlag) :
    f ∈ texts.foldl addFlag flags ↔ f ∈ flags ∨ f.text ∈ texts := by
  induction texts generalizing flags with
  | nil => simp
  | cons text texts ih =>
    rw [List.foldl_cons, ih, List.mem_cons]
    unfold addFlag
    cases hparse : UseFlag.parse text with
    | ok added =>
      obtain rfl := UseFlag.parse_eq_ok_iff.1 hparse
      show f ∈ Ascending.insert added flags ∨ _ ↔ _
      rw [Ascending.mem_insert, ← UseFlag.text_inj, or_assoc, or_left_comm]
    | error e => rw [or_iff_right (f.text_ne_of_parse hparse)]

section
variable {j : Journal ChainMemo} {p : Profile} (hp : (x.profile.on t j).1 = .ok p)
include hp

/-- The flags that a profile's variables and their values stand for. -/
theorem expandedFlags_on : ∃ flags, (x.expandedFlags.on t j).1 = .ok flags ∧
    ∀ f : UseFlag, f ∈ flags ↔ ∃ name ∈ p.incremental expandVariable,
      ∃ value ∈ Text.words (p.value name), f.text = expandedFlag name value := by
  obtain ⟨j', hj'⟩ : ∃ j', x.profile.on t j = (.ok p, j') := ⟨_, Prod.ext hp rfl⟩
  have hfold (texts : List String) (flags : List UseFlag) :
      Scan.Reads (id : ChainMemo → ChainMemo) (texts.foldlM (fun flags text => do
        match UseFlag.parse text with
        | .ok flag => return Ascending.insert flag flags
        | .error e => do
          Scan.warn (.malformedFlag x.repository e)
          return flags) flags) t (.ok (texts.foldl addFlag flags)) := by
    rw [← Scan.foldlM_ok]
    refine .foldlM texts (fun flags text _ => ?_) flags
    unfold addFlag
    cases UseFlag.parse text with
    | ok flag => exact Scan.reads_pure _
    | error e => exact (Scan.reads_warn _).bind_ok (Scan.reads_pure flags)
  obtain ⟨j'', hj'', -⟩ := (hfold _ []).on_eq j'
  unfold expandedFlags
  rw [Scan.on_bind_of_ok hj']
  refine ⟨_, congrArg Prod.fst hj'', fun f => ?_⟩
  rw [mem_foldl_addFlag_iff]
  simp only [List.not_mem_nil, false_or, List.mem_flatMap, List.mem_map, eq_comm]

theorem splitExpanded_on (f : UseFlag) : ((x.splitExpanded f).on t j).1 =
    match splitExpanded? (p.incremental expandVariable) (Text.lower f.text) with
    | some parts => .ok parts
    | none => .error (.invalidUseFlag (f.text ++ " is not a USE_EXPAND flag")) := by
  unfold splitExpanded
  rw [Scan.on_bind, hp]
  dsimp only
  cases splitExpanded? (p.incremental expandVariable) (Text.lower f.text) <;> rfl

/-- Taking apart inverts building, for the variables that no earlier one stands in the way of; what
fits no variable, in small letters, is not taken apart. -/
theorem splitExpanded_expandedFlag :
    (∀ name ∈ p.incremental expandVariable, ∀ value ∈ Text.words (p.value name),
      ∀ f : UseFlag, f.text = expandedFlag name value →
        (∃ flags, (x.expandedFlags.on t j).1 = .ok flags ∧ f ∈ flags) ∧
        ((∀ earlier ∈ (p.incremental expandVariable).takeWhile (· != name),
            ¬ Fits f.text earlier) →
          ((x.expandName f).on t j).1 = .ok name ∧
            ((x.expandValue f).on t j).1 = .ok (Text.lower value))) ∧
    ∀ f : UseFlag, (∀ name ∈ p.incremental expandVariable, ¬ Fits (Text.lower f.text) name) →
      ((x.expandName f).on t j).1 =
          .error (.invalidUseFlag (f.text ++ " is not a USE_EXPAND flag")) ∧
        ((x.expandValue f).on t j).1 =
          .error (.invalidUseFlag (f.text ++ " is not a USE_EXPAND flag")) := by
  have hname (f : UseFlag) :
      ((x.expandName f).on t j).1 = ((x.splitExpanded f).on t j).1.map Prod.fst := by
    unfold expandName
    rw [bind_pure_comp, Scan.on_map]
  have hvalue (f : UseFlag) :
      ((x.expandValue f).on t j).1 = ((x.splitExpanded f).on t j).1.map Prod.snd := by
    unfold expandValue
    rw [bind_pure_comp, Scan.on_map]
  constructor
  · intro name hmem value hword f hf
    constructor
    · obtain ⟨flags, hflags, hiff⟩ := expandedFlags_on hp
      exact ⟨flags, hflags, (hiff f).2 ⟨name, hmem, value, hword, hf⟩⟩
    · intro hearlier
      have hsplit : splitExpanded? (p.incremental expandVariable) (Text.lower f.text) =
          some (name, Text.lower value) := by
        rw [lower_eq_of_text_eq hf]
        refine splitExpanded?_eq_some hmem ?_ hearlier
        rw [hf]
        exact valueOf?_expandedFlag (Text.ne_empty_of_mem_words hword)
      rw [hname, hvalue, splitExpanded_on hp, hsplit]
      exact ⟨rfl, rfl⟩
  · intro f hnone
    rw [hname, hvalue, splitExpanded_on hp, splitExpanded?_eq_none hnone]
    exact ⟨rfl, rfl⟩

end

/-! ## Variables in each other's way -/

/-- One variable, an underscore and more make another variable. -/
def nestedTree : FileTree :=
  ⟨⟨[(["d"], .directory), (["d", "make.defaults"], .text
    "USE_EXPAND=\"VIDEO VIDEO_CARDS KERNEL\"\nVIDEO_CARDS=\"radeon\"\nKERNEL=\"Linux\"\n")]⟩⟩

def nestedChain : ProfileChain := ⟨"main", [], ["/d"], Shuffle.none⟩

def nestedStart : Journal ChainMemo := ⟨{}, []⟩

theorem profile_nestedTree : ∃ p, (nestedChain.profile.on nestedTree nestedStart).1 = .ok p ∧
    p.incremental expandVariable = ["VIDEO", "VIDEO_CARDS", "KERNEL"] ∧
    p.value "VIDEO_CARDS" = "radeon" ∧ p.value "KERNEL" = "Linux" := by
  have hprofile : ((nestedChain.profile.on nestedTree nestedStart).1.map fun p =>
      (p.incremental expandVariable, p.value "VIDEO_CARDS", p.value "KERNEL")).toOption =
      some (["VIDEO", "VIDEO_CARDS", "KERNEL"], "radeon", "Linux") := by decide +kernel
  obtain ⟨p, hp, heq⟩ := Scan.map_eq_ok_iff.1 (Scan.toOption_eq_some_iff.1 hprofile)
  obtain ⟨hnames, hvalues⟩ := Prod.mk.inj heq
  obtain ⟨hcards, hkernel⟩ := Prod.mk.inj hvalues
  exact ⟨p, hp, hnames, hcards, hkernel⟩

/-- A flag that fits neither of two earlier variables, and one that fits none. -/
theorem splitExpanded_nestedTree : ∃ p,
    (nestedChain.profile.on nestedTree nestedStart).1 = .ok p ∧
    "KERNEL" ∈ p.incremental expandVariable ∧ "Linux" ∈ Text.words (p.value "KERNEL") ∧
    (∀ earlier ∈ (p.incremental expandVariable).takeWhile (· != "KERNEL"),
      ¬ Fits "kernel_linux" earlier) ∧
    ((nestedChain.expandName ⟨"kernel_linux", by decide⟩).on nestedTree nestedStart).1 =
      .ok "KERNEL" ∧
    ((nestedChain.expandValue ⟨"kernel_linux", by decide⟩).on nestedTree nestedStart).1 =
      .ok (Text.lower "Linux") ∧
    ((nestedChain.expandName ⟨"Kernel", by decide⟩).on nestedTree nestedStart).1 =
      .error (.invalidUseFlag "Kernel is not a USE_EXPAND flag") := by
  obtain ⟨p, hp, hnames, -, hkernel⟩ := profile_nestedTree
  have hname : "KERNEL" ∈ p.incremental expandVariable := by
    rw [hnames]
    decide
  have hvalue : "Linux" ∈ Text.words (p.value "KERNEL") := by
    rw [hkernel]
    decide +kernel
  have hearlier : ∀ earlier ∈ (p.incremental expandVariable).takeWhile (· != "KERNEL"),
      ¬ Fits "kernel_linux" earlier := by
    simp only [hnames, ← valueOf?_eq_none_iff]
    decide +kernel
  have hnone : ∀ name ∈ p.incremental expandVariable, ¬ Fits (Text.lower "Kernel") name := by
    simp only [hnames, ← valueOf?_eq_none_iff]
    decide +kernel
  obtain ⟨hinverts, hfails⟩ := splitExpanded_expandedFlag hp
  obtain ⟨-, hsplit⟩ := hinverts "KERNEL" hname "Linux" hvalue ⟨"kernel_linux", by decide⟩
    (by decide +kernel)
  obtain ⟨hbase, hrest⟩ := hsplit hearlier
  exact ⟨p, hp, hname, hvalue, hearlier, hbase, hrest, (hfails ⟨"Kernel", by decide⟩ hnone).1⟩

/-- The flag of a variable is taken for one of an earlier variable, and a flag with capital letters
that starts like no variable in small letters is taken for one too. -/
theorem not_splitExpanded_nestedTree : ∃ p,
    (nestedChain.profile.on nestedTree nestedStart).1 = .ok p ∧
    ("VIDEO_CARDS" ∈ p.incremental expandVariable ∧
      "radeon" ∈ Text.words (p.value "VIDEO_CARDS") ∧
      "video_cards_radeon" = expandedFlag "VIDEO_CARDS" "radeon" ∧
      ((nestedChain.expandName ⟨"video_cards_radeon", by decide⟩).on nestedTree nestedStart).1 =
        .ok "VIDEO") ∧
    (∀ name ∈ p.incremental expandVariable, ¬ Fits "KERNEL_linux" name) ∧
    ((nestedChain.expandName ⟨"KERNEL_linux", by decide⟩).on nestedTree nestedStart).1 =
      .ok "KERNEL" := by
  obtain ⟨p, hp, hnames, hcards, -⟩ := profile_nestedTree
  have hvideo : ((nestedChain.expandName ⟨"video_cards_radeon", by decide⟩).on nestedTree
      nestedStart).1.toOption = some "VIDEO" := by decide +kernel
  have hkernel : ((nestedChain.expandName ⟨"KERNEL_linux", by decide⟩).on nestedTree
      nestedStart).1.toOption = some "KERNEL" := by decide +kernel
  refine ⟨p, hp, ⟨?_, ?_, by decide +kernel, Scan.toOption_eq_some_iff.1 hvideo⟩, ?_,
    Scan.toOption_eq_some_iff.1 hkernel⟩
  · rw [hnames]
    decide
  · rw [hcards]
    decide +kernel
  · simp only [hnames, ← valueOf?_eq_none_iff]
    decide +kernel

end PackageCatalog.ProfileChain
