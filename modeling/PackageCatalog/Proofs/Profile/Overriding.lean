import Mathlib.Data.List.Induction
import PackageCatalog.Proofs.Name.Versioned
import PackageCatalog.Proofs.Profile.Declarations

/-!
# Lines that override earlier lines

A line of a `use.mask`, `use.force` or `package.mask` file is taken back by a later one that is the
same after a minus sign, and a line of a `virtuals` file is replaced by a later one about the same
virtual.  Of all lines about one thing the last decides, and lines that cannot be read decide
nothing:

    Stands text lines      the last line that is the text, or the text after a minus sign, is the text
    flag ∈ lines.foldl readFlagLine [] ↔ Stands flag.text lines        (mem_foldl_readFlagLine_iff)
    p is loaded → Overrides t p                                                    (load_overrides)
-/

namespace PackageCatalog

namespace Profile

open Scan (Yields)

variable {σ : Type} {t : FileTree} {text line : String} {lines : List String}

/-! ## Lines that stand -/

/-- The last line that is this text, or this text after a minus sign, is the text. -/
def Stands (text : String) (lines : List String) : Prop :=
  (lines.filter fun line => line == text || line == "-" ++ text).getLast? = some text

theorem not_stands_nil : ¬ Stands text [] := nofun

theorem minus_append_ne (text : String) : "-" ++ text ≠ text := by
  intro h
  have hlength := congrArg String.length h
  rw [String.length_append] at hlength
  have hminus : "-".length = 1 := rfl
  omega

theorem stands_append_iff :
    Stands text (lines ++ [line]) ↔ line = text ∨ line ≠ "-" ++ text ∧ Stands text lines := by
  unfold Stands
  rw [List.filter_append]
  by_cases htext : line = text
  · simp [htext]
  · by_cases hminus : line = "-" ++ text
    · have hne := minus_append_ne text
      simp [hminus, hne]
    · simp [htext, hminus]

/-! ## Flags -/

theorem afterMinus?_flag (flag : UseFlag) : afterMinus? flag.text = none := by
  rw [Option.eq_none_iff_forall_ne_some]
  intro rest h
  obtain ⟨c, r, hcons, hc, -⟩ := isNameOf_iff.1 flag.valid
  rw [afterMinus?_eq_some_iff.1 h, String.toList_append] at hcons
  cases (List.cons.inj hcons).1
  exact absurd hc (by decide)

theorem mem_readFlagLine_iff {flags : List UseFlag} {flag : UseFlag} :
    flag ∈ readFlagLine flags line ↔
      line = flag.text ∨ line ≠ "-" ++ flag.text ∧ flag ∈ flags := by
  unfold readFlagLine applyFlagLine
  cases hminus : afterMinus? line with
  | some name =>
    have hplain : line ≠ flag.text := by
      rintro rfl
      rw [afterMinus?_flag] at hminus
      cases hminus
    rw [Ne, eq_minus_iff_of_afterMinus? hminus, or_iff_right hplain]
    dsimp only
    cases hparse : UseFlag.parse name with
    | ok removed =>
      obtain rfl := UseFlag.parse_eq_ok_iff.1 hparse
      show flag ∈ flags.filter (· != removed) ↔ _
      rw [List.mem_filter, bne_iff_ne, and_comm, Ne, ← UseFlag.text_inj]
    | error e => exact (and_iff_right (flag.text_ne_of_parse hparse)).symm
  | none =>
    rw [and_iff_right (ne_minus_of_afterMinus? hminus flag.text)]
    dsimp only
    cases hparse : UseFlag.parse line with
    | ok added =>
      obtain rfl := UseFlag.parse_eq_ok_iff.1 hparse
      show flag ∈ (if added ∈ flags then flags else flags ++ [added]) ↔ _
      rw [mem_ite_append_iff, or_comm, ← UseFlag.text_inj, eq_comm]
    | error e => exact (or_iff_right (flag.text_ne_of_parse hparse).symm).symm

theorem mem_foldl_readFlagLine_iff (lines : List String) (flag : UseFlag) :
    flag ∈ lines.foldl readFlagLine [] ↔ Stands flag.text lines := by
  -- From the back: the last line decides, or it leaves the flag to the lines before it.
  induction lines using List.reverseRecOn with
  | nil => exact ⟨nofun, nofun⟩
  | append_singleton lines line ih =>
    rw [List.foldl_append, stands_append_iff, ← ih]
    exact mem_readFlagLine_iff

/-! ## Masks -/

theorem parseMask_eq_ok_iff {n : QualifiedName} {atom : Atom} : parseMask line = .ok (n, atom) ↔
    Atom.parse line = .ok atom ∧ atom.blocker = none ∧ atom.qualifiedName = .ok n := by
  unfold parseMask
  rw [Scan.bind_eq_ok_iff]
  constructor
  · rintro ⟨atom', hparse, h⟩
    cases hblocker : atom'.blocker with
    | some b =>
      rw [hblocker] at h
      cases h
    | none =>
      rw [hblocker] at h
      obtain ⟨n', hn, heq⟩ := Scan.bind_eq_ok_iff.1 h
      cases heq
      exact ⟨hparse, hblocker, hn⟩
  · rintro ⟨hparse, hblocker, hn⟩
    refine ⟨atom, hparse, ?_⟩
    rw [hblocker]
    exact Scan.bind_eq_ok_iff.2 ⟨n, hn, rfl⟩

/-- The masks of a package, with their texts. -/
def masksIn (masks : Table QualifiedName (List (String × Atom))) (n : QualifiedName) :
    List (String × Atom) :=
  (masks.get? n).getD []

theorem masksIn_unmask (masks : Table QualifiedName (List (String × Atom))) (unmasked : String)
    (n : QualifiedName) : masksIn (({ masks := masks } : Profile).unmask unmasked).masks n =
      (masksIn masks n).filter fun mask => mask.1 != unmasked := by
  unfold masksIn unmask Table.get?
  rw [Table.find?_map fun list : List (String × Atom) => list.filter fun mask => mask.1 != unmasked]
  cases Table.find? n masks.entries <;> rfl

theorem mem_masksIn_update_iff {masks : Table QualifiedName (List (String × Atom))}
    {n n' : QualifiedName} {mask mask' : String × Atom} :
    mask ∈ masksIn (masks.update n' [] (· ++ [mask'])) n ↔
      mask ∈ masksIn masks n ∨ n = n' ∧ mask = mask' := by
  unfold masksIn Table.update
  rw [Table.get?_insert]
  by_cases hn : n = n'
  · subst hn
    simp
  · simp [hn]

theorem mem_readMaskLine_iff {masks : Table QualifiedName (List (String × Atom))}
    {n : QualifiedName} {atom : Atom} : (text, atom) ∈ masksIn (readMaskLine masks line) n ↔
      (afterMinus? text = none ∧ parseMask text = .ok (n, atom)) ∧ line = text ∨
        line ≠ "-" ++ text ∧ (text, atom) ∈ masksIn masks n := by
  unfold readMaskLine applyMaskLine
  cases hminus : afterMinus? line with
  | some unmasked =>
    have hplain : ¬ ((afterMinus? text = none ∧ parseMask text = .ok (n, atom)) ∧ line = text) := by
      rintro ⟨⟨hnone, -⟩, rfl⟩
      cases hminus.symm.trans hnone
    rw [or_iff_right hplain, Ne, eq_minus_iff_of_afterMinus? hminus]
    show (text, atom) ∈ masksIn (({ masks := masks } : Profile).unmask unmasked).masks n ↔ _
    rw [masksIn_unmask, List.mem_filter, bne_iff_ne, and_comm]
  | none =>
    rw [and_iff_right (ne_minus_of_afterMinus? hminus text)]
    dsimp only
    cases hparse : parseMask line with
    | ok mask =>
      obtain ⟨n', atom'⟩ := mask
      show (text, atom) ∈ masksIn (masks.update n' [] (· ++ [(line, atom')])) n ↔ _
      rw [mem_masksIn_update_iff, or_comm]
      refine or_congr_left ⟨?_, ?_⟩
      · rintro ⟨rfl, hmask⟩
        cases hmask
        exact ⟨⟨hminus, hparse⟩, rfl⟩
      · rintro ⟨⟨-, hmask⟩, rfl⟩
        cases hparse.symm.trans hmask
        exact ⟨rfl, rfl⟩
    | error e =>
      have hplain :
          ¬ ((afterMinus? text = none ∧ parseMask text = .ok (n, atom)) ∧ line = text) := by
        rintro ⟨⟨-, hmask⟩, rfl⟩
        cases hparse.symm.trans hmask
      exact (or_iff_right hplain).symm

theorem mem_foldl_readMaskLine_iff (lines : List String) {n : QualifiedName} {atom : Atom} :
    (text, atom) ∈ masksIn (lines.foldl readMaskLine ∅) n ↔
      (afterMinus? text = none ∧ parseMask text = .ok (n, atom)) ∧ Stands text lines := by
  induction lines using List.reverseRecOn with
  | nil => exact ⟨nofun, fun h => absurd h.2 not_stands_nil⟩
  | append_singleton lines line ih =>
    rw [List.foldl_append, List.foldl_cons, List.foldl_nil, mem_readMaskLine_iff, ih,
      stands_append_iff, and_or_left, and_left_comm]

/-- An atom that accepts a package names it and is no blocker, so that its line is a mask of it. -/
theorem parseMask_of_accepts {n : QualifiedName} {atom : Atom} (hparse : Atom.parse line = .ok atom)
    {v : Version} {repository : String} {slot : Option Slot}
    (haccepts : atom.accepts n v repository slot = true) : parseMask line = .ok (n, atom) := by
  unfold Atom.accepts Atom.acceptsApartFromSlot at haccepts
  simp only [Bool.and_eq_true, Option.isNone_iff_eq_none, beq_iff_eq] at haccepts
  obtain ⟨⟨⟨⟨hblocker, hname⟩, -⟩, -⟩, -⟩ := haccepts
  refine parseMask_eq_ok_iff.2 ⟨hparse, hblocker, ?_⟩
  unfold Atom.qualifiedName
  rw [hname]
  exact n.parse_text

/-- Whether some line that stands is the text of a mask that accepts a package version. -/
def MaskedBy (lines : List String) (n : QualifiedName) (v : Version) (repository : String)
    (slot : Option Slot) : Prop :=
  ∃ text atom, afterMinus? text = none ∧ Atom.parse text = .ok atom ∧ Stands text lines ∧
    atom.accepts n v repository slot = true

theorem any_accepts_iff {p : Profile} {lines : List String}
    (h : p.masks = lines.foldl readMaskLine ∅) {n : QualifiedName} {v : Version}
    {repository : String} {slot : Option Slot} :
    ((p.masksOf n).any fun mask => mask.accepts n v repository slot) = true ↔
      MaskedBy lines n v repository slot := by
  have hmasks : p.masksOf n = (masksIn (lines.foldl readMaskLine ∅) n).map Prod.snd := by
    rw [← h]
    rfl
  rw [hmasks, List.any_eq_true]
  constructor
  · rintro ⟨atom, hatom, haccepts⟩
    obtain ⟨⟨text, _⟩, hmem, rfl⟩ := List.mem_map.1 hatom
    obtain ⟨⟨hminus, hmask⟩, hstands⟩ := (mem_foldl_readMaskLine_iff lines).1 hmem
    exact ⟨text, _, hminus, (parseMask_eq_ok_iff.1 hmask).1, hstands, haccepts⟩
  · rintro ⟨text, atom, hminus, hparse, hstands, haccepts⟩
    exact ⟨atom, List.mem_map.2 ⟨(text, atom), (mem_foldl_readMaskLine_iff lines).2
      ⟨⟨hminus, parseMask_of_accepts hparse haccepts⟩, hstands⟩, rfl⟩, haccepts⟩

/-! ## Virtuals -/

/-- What the last well-formed line about a virtual declares. -/
def lastDeclared (lines : List String) (n : QualifiedName) : Option Atom :=
  ((lines.filterMap declaration?).filter (·.1 = n)).getLast?.map Prod.snd

theorem get?_readVirtualsLine (virtuals : Table QualifiedName Atom) (line : String)
    (n : QualifiedName) : (readVirtualsLine virtuals line).get? n =
      ((declaration? line).bind fun d => if n = d.1 then some d.2 else none).or
        (virtuals.get? n) := by
  unfold readVirtualsLine
  cases declaration? line with
  | none => rfl
  | some d =>
    show (virtuals.insert d.1 d.2).get? n = (if n = d.1 then some d.2 else none).or _
    rw [Table.get?_insert]
    by_cases hn : n = d.1
    · rw [if_pos hn, if_pos hn]
      rfl
    · rw [if_neg hn, if_neg hn]
      rfl

theorem get?_foldl_readVirtualsLine (lines : List String) (n : QualifiedName) :
    (lines.foldl readVirtualsLine ∅).get? n = lastDeclared lines n := by
  induction lines using List.reverseRecOn with
  | nil => rfl
  | append_singleton lines line ih =>
    rw [List.foldl_append, List.foldl_cons, List.foldl_nil, get?_readVirtualsLine, ih]
    unfold lastDeclared
    rw [List.filterMap_append, List.filter_append, List.getLast?_append]
    cases hline : declaration? line with
    | none => simp [hline]
    | some d =>
      by_cases hn : n = d.1
      · simp [hline, hn]
      · simp [hline, hn, Ne.symm hn]

/-! ## Malformed lines -/

def isFlagLine (line : String) : Bool := (UseFlag.parse ((afterMinus? line).getD line)).isOk

def isMaskLine (line : String) : Bool := (afterMinus? line).isSome || (parseMask line).isOk

def isVirtualsLine (line : String) : Bool := (declaration? line).isSome

/-- What changes nothing can be left out. -/
theorem foldl_filter_eq {α β : Type} {read : β → α → β} {counts : α → Bool}
    (h : ∀ b a, counts a = false → read b a = b) (as : List α) (b : β) :
    as.foldl read b = (as.filter counts).foldl read b := by
  rw [List.foldl_filter]
  refine congrArg (fun f => as.foldl f b) (funext fun b => funext fun a => ?_)
  cases hcounts : counts a with
  | true => rfl
  | false => exact h b a hcounts

theorem readFlagLine_of_not_isFlagLine (flags : List UseFlag) (line : String)
    (h : isFlagLine line = false) : readFlagLine flags line = flags := by
  unfold isFlagLine at h
  unfold readFlagLine applyFlagLine
  cases hminus : afterMinus? line with
  | some name =>
    rw [hminus, Option.getD_some] at h
    dsimp only
    cases hparse : UseFlag.parse name with
    | ok flag =>
      rw [hparse] at h
      cases h
    | error e => rfl
  | none =>
    rw [hminus, Option.getD_none] at h
    dsimp only
    cases hparse : UseFlag.parse line with
    | ok flag =>
      rw [hparse] at h
      cases h
    | error e => rfl

theorem readMaskLine_of_not_isMaskLine (masks : Table QualifiedName (List (String × Atom)))
    (line : String) (h : isMaskLine line = false) : readMaskLine masks line = masks := by
  obtain ⟨hminus, hparse⟩ := Bool.or_eq_false_iff.1 h
  unfold readMaskLine applyMaskLine
  rw [Option.isSome_eq_false_iff, Option.isNone_iff_eq_none] at hminus
  rw [hminus]
  dsimp only
  cases hmask : parseMask line with
  | ok mask =>
    rw [hmask] at hparse
    cases hparse
  | error e => rfl

theorem readVirtualsLine_of_not_isVirtualsLine (virtuals : Table QualifiedName Atom)
    (line : String) (h : isVirtualsLine line = false) :
    readVirtualsLine virtuals line = virtuals := by
  unfold isVirtualsLine at h
  rw [Option.isSome_eq_false_iff, Option.isNone_iff_eq_none] at h
  unfold readVirtualsLine
  rw [h]

/-! ## Loaded profiles -/

/-- The last line about a flag, a mask or a virtual decides, and malformed lines decide nothing. -/
structure Overrides (t : FileTree) (p : Profile) : Prop where
  useMasked : ∀ flag, p.useMasked flag = true ↔ Stands flag.text (linesIn t "use.mask" p.dirs)
  useForced : ∀ flag, p.useForced flag = true ↔ Stands flag.text (linesIn t "use.force" p.dirs)
  masked : ∀ (σ : Type) (I : σ → Prop) (u : FileTree) (slotOf : Scan σ (Option Slot)) slot n v
    repository, Yields I slotOf u (.ok slot) → ∃ answer,
      Yields I (p.masked n v repository slotOf) u (.ok answer) ∧
      (answer = true ↔ MaskedBy (linesIn t "package.mask" p.dirs) n v repository slot)
  declares : ∀ n atom, (n, atom) ∈ p.virtualList ↔
    lastDeclared (linesIn t "virtuals" p.dirs) n = some atom
  unambiguous : (p.virtualList.map Prod.fst).Nodup
  flagLines : p.useMask = ((linesIn t "use.mask" p.dirs).filter isFlagLine).foldl readFlagLine [] ∧
    p.useForce = ((linesIn t "use.force" p.dirs).filter isFlagLine).foldl readFlagLine []
  maskLines : p.masks =
    ((linesIn t "package.mask" p.dirs).filter isMaskLine).foldl readMaskLine ∅
  virtualsLines : p.virtuals =
    ((linesIn t "virtuals" p.dirs).filter isVirtualsLine).foldl readVirtualsLine ∅

theorem load_overrides {starts : List String} {p : Profile} {j : Journal σ}
    (h : ((load starts).on t j).1 = .ok p) : Overrides t p := by
  have hholds := load_holds h
  have hmask := foldl_filter_eq readFlagLine_of_not_isFlagLine (linesIn t "use.mask" p.dirs) []
  have hforce := foldl_filter_eq readFlagLine_of_not_isFlagLine (linesIn t "use.force" p.dirs) []
  have hmasks := foldl_filter_eq readMaskLine_of_not_isMaskLine (linesIn t "package.mask" p.dirs) ∅
  have hvirtuals := foldl_filter_eq readVirtualsLine_of_not_isVirtualsLine
    (linesIn t "virtuals" p.dirs) ∅
  refine ⟨fun flag => ?_, fun flag => ?_, fun σ I u slotOf slot n v repository hslot => ?_,
    fun n atom => ?_, nodup_virtualList hholds.unambiguous, ⟨hholds.useMask.trans hmask,
    hholds.useForce.trans hforce⟩, hholds.masks.trans hmasks, hholds.virtuals.trans hvirtuals⟩
  · rw [← mem_foldl_readFlagLine_iff, ← hholds.useMask]
    exact decide_eq_true_iff
  · rw [← mem_foldl_readFlagLine_iff, ← hholds.useForce]
    exact decide_eq_true_iff
  · exact ⟨_, anyAccepts_yields hslot _ n v repository, any_accepts_iff hholds.masks⟩
  · rw [mem_virtualList_iff hholds.unambiguous, hholds.virtuals, get?_foldl_readVirtualsLine]

/-- A directory that takes back a flag and a mask of its parent and declares a virtual again, in one
line that is well-formed and one that is not. -/
def overridingTree : FileTree :=
  ⟨⟨[(["p"], .directory), (["p", "base"], .directory),
    (["p", "base", "use.mask"], .text "foo\nbar\n"),
    (["p", "base", "package.mask"], .text ">=app/vi-2\napp/ed\n"),
    (["p", "base", "virtuals"], .text "virtual/editor app/vi\n"), (["p", "x"], .directory),
    (["p", "x", "parent"], .text "../base\n"), (["p", "x", "use.mask"], .text "-foo\n--bar\n"),
    (["p", "x", "package.mask"], .text "->=app/vi-2\n!app/ed\n"),
    (["p", "x", "virtuals"], .text "virtual/editor app/ed\nvirtual/editor\n")]⟩⟩

theorem load_overrides_overridingTree :
    ∃ p, ((load ["/p/x"]).on overridingTree (⟨(), []⟩ : Journal Unit)).1 = .ok p ∧
      p.useMask.map UseFlag.text = ["bar"] ∧
      p.masks.entries.map (fun e => (e.1.text, e.2.map Prod.fst)) =
        [("app/vi", []), ("app/ed", ["app/ed"])] ∧
      p.virtualList.map (fun d => (d.1.text, d.2.name)) = [("virtual/editor", "app/ed")] ∧
      Overrides overridingTree p := by
  have hprofile : (((load ["/p/x"]).on overridingTree (⟨(), []⟩ : Journal Unit)).1.map fun p =>
      (p.useMask.map UseFlag.text,
        p.masks.entries.map fun e => (e.1.text, e.2.map Prod.fst),
        p.virtualList.map fun d => (d.1.text, d.2.name))).toOption =
      some (["bar"], [("app/vi", []), ("app/ed", ["app/ed"])], [("virtual/editor", "app/ed")]) := by
    decide +kernel
  obtain ⟨p, hp, heq⟩ := Scan.map_eq_ok_iff.1 (Scan.toOption_eq_some_iff.1 hprofile)
  obtain ⟨hflags, hrest⟩ := Prod.mk.inj heq
  obtain ⟨hmasks, hvirtuals⟩ := Prod.mk.inj hrest
  exact ⟨p, hp, hflags, hmasks, hvirtuals, load_overrides hp⟩

end Profile

end PackageCatalog
