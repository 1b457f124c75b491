import Mathlib.Data.List.TakeWhile
import PackageCatalog.Proofs.Atom.Constraint
import PackageCatalog.Proofs.Name.Versioned

/-!
# The atom of one package version

The text `=category/package-version` is read as an atom if no number of the version is too large to
be kept, and the atom names the package and the version in normal form:

    Atom.parse? ("=" ++ n.versioned v) = (ofVersion? v false).map (Atom.exactly n)
                                                                       (parse?_versioned)
    (Atom.exactly n c).accepts m w repository slot ↔ m = n ∧ w.precedence c.version = .eq
                                                                       (accepts_exactly_iff)

The last hyphen with a digit behind it is the one before the version: those of the package come
before it, and the one of a revision has an `r` behind it.
-/

namespace PackageCatalog

/-! ## Words -/

theorem readWord_append {start : Char → Bool} {others word rest : List Char}
    (hstart : word.head?.any start = true) (hword : ∀ c ∈ word, isWordChar others c = true)
    (hrest : Starts (fun c => isWordChar others c = false) rest) :
    readWord start others (word ++ rest) = some (word, rest) := by
  obtain ⟨c, r, rfl⟩ : ∃ c r, word = c :: r := by
    cases word with
    | nil => cases hstart
    | cons c r => exact ⟨c, r, rfl⟩
  obtain ⟨htake, hdrop⟩ := takeWhile_dropWhile_append hword hrest
  unfold readWord
  rw [htake, hdrop]
  exact if_pos hstart

/-! ## The hyphen before the version -/

theorem splitLastHyphen_eq_none {cs : List Char}
    (h : ∀ before after, cs = before ++ '-' :: after → after.head?.any Char.isDigit = false) :
    splitLastHyphen cs = none := by
  induction cs with
  | nil => rfl
  | cons c r ih =>
    have hrest := ih fun before after hr => h (c :: before) after (by rw [hr]; rfl)
    have hhere : ¬ (c = '-' ∧ r.head?.any Char.isDigit = true) := by
      rintro ⟨rfl, hdigit⟩
      rw [h [] r rfl] at hdigit
      cases hdigit
    rw [splitLastHyphen, hrest]
    exact if_neg hhere

theorem splitLastHyphen_append (before : List Char) {after : List Char}
    (hdigit : after.head?.any Char.isDigit = true) (hlater : splitLastHyphen after = none) :
    splitLastHyphen (before ++ '-' :: after) = some (before, after) := by
  induction before with
  | nil =>
    rw [List.nil_append, splitLastHyphen, hlater]
    exact if_pos ⟨rfl, hdigit⟩
  | cons c r ih => rw [List.cons_append, splitLastHyphen, ih]

theorem splitLastHyphen_render (package : List Char) (v : Version) :
    splitLastHyphen (package ++ '-' :: v.render) = some (package, v.render) := by
  refine splitLastHyphen_append package ?_ (splitLastHyphen_eq_none fun before after hr => ?_)
  · obtain ⟨c, r, hr⟩ := List.exists_cons_of_ne_nil v.render_ne_nil
    have hdigit := v.starts_render
    rw [hr] at hdigit ⊢
    exact hdigit c rfl
  · refine Bool.eq_false_iff.2 fun hdigit => Version.not_starts_of_render_eq hr fun c hc => ?_
    rw [Option.mem_def] at hc
    rw [hc] at hdigit
    exact hdigit

/-! ## Characters of names and versions -/

theorem isWordChar_iff {others : List Char} {c : Char} :
    isWordChar others c = true ↔ c.isAlphanum = true ∨ c ∈ ['_', '-', '+'] ∨ c ∈ others := by
  simp [isWordChar, or_assoc]

theorem isWordChar_of_isNameStart {others : List Char} {c : Char} (h : isNameStart c = true) :
    isWordChar others c = true := by
  rw [isWordChar_iff]
  rcases Bool.or_eq_true_iff.1 h with h | h
  · exact .inl h
  · rw [beq_iff_eq.1 h]
    exact .inr (.inl (by decide))

theorem isWordChar_mono {others : List Char} {c : Char} (h : isWordChar [] c = true) :
    isWordChar others c = true := by
  rw [isWordChar_iff] at h ⊢
  exact h.imp_right fun h => .inl (h.resolve_right List.not_mem_nil)

theorem isPlainStart_of_isNameStart {c : Char} (h : isNameStart c = true) :
    isPlainStart c = true := by
  refine decide_eq_true fun hc => ?_
  simp only [List.mem_cons, List.not_mem_nil, or_false] at hc
  rcases hc with rfl | rfl | rfl <;> exact absurd h (by decide)

/-- Besides letters and digits, a kind of name has characters of its own. -/
theorem isWordChar_of_isNameOf {own others cs : List Char}
    (hown : own.all (isWordChar others) = true)
    (h : isNameOf isNameStart (fun c => c.isAlphanum || c ∈ own) cs = true) :
    ∀ c ∈ cs, isWordChar others c = true := by
  refine forall_mem_of_isNameOf (fun c => isWordChar_of_isNameStart) (fun c hc => ?_) h
  rcases Bool.or_eq_true_iff.1 hc with hc | hc
  · exact isWordChar_iff.2 (.inl hc)
  · exact List.all_eq_true.1 hown c (of_decide_eq_true hc)

theorem Category.isWordChar_of_mem (category : Category) :
    ∀ c ∈ category.text.toList, isWordChar ['.'] c = true :=
  isWordChar_of_isNameOf (by decide) category.valid

theorem PackageName.isWordChar_of_mem (package : PackageName) :
    ∀ c ∈ package.text.toList, isWordChar [] c = true :=
  isWordChar_of_isNameOf (by decide) (Bool.and_eq_true_iff.1 package.valid).1

theorem Version.isVersionedChar_of_mem {v : Version} {c : Char} (h : c ∈ v.render) :
    isVersionedChar c = true := by
  rw [isVersionedChar, isWordChar_iff]
  rcases frontChar_of_mem_render h with (hdigit | hlower | rfl | rfl) | rfl
  · exact .inl (Bool.or_eq_true_iff.2 (.inr hdigit))
  · exact .inl (Bool.or_eq_true_iff.2 (.inl (Bool.or_eq_true_iff.2 (.inr hlower))))
  · decide
  · decide
  · decide

/-! ## Names -/

theorem readCategory_append (category : Category) (rest : List Char) :
    readCategory (category.text.toList ++ '/' :: rest) =
      some (category.text.toList, '/' :: rest) := by
  refine readWord_append ?_ category.isWordChar_of_mem (by rintro c ⟨⟩; decide)
  obtain ⟨c, r, htext, hc, -⟩ := isNameOf_iff.1 category.valid
  rw [htext]
  exact isPlainStart_of_isNameStart hc

theorem isPackageWord_text (package : PackageName) :
    isPackageWord package.text.toList = true := by
  obtain ⟨c, r, htext, hc, -⟩ := isNameOf_iff.1 (Bool.and_eq_true_iff.1 package.valid).1
  have hword := List.all_eq_true.2 package.isWordChar_of_mem
  rw [htext] at hword ⊢
  exact Bool.and_eq_true_iff.2 ⟨hc, hword⟩

theorem splitPackage?_versioned (package : PackageName) (v : Version) :
    splitPackage? (package.text.toList ++ '-' :: v.render) =
      (VersionConstraint.ofVersion? v false).map fun c => (package.text.toList, c) := by
  unfold splitPackage?
  rw [splitLastHyphen_render]
  dsimp only
  rw [if_pos (isPackageWord_text package), ← v.toList_text, VersionConstraint.ofChars?_text]

theorem readPackage_versioned (package : PackageName) (v : Version) :
    readPackage true (package.text.toList ++ '-' :: v.render) =
      (VersionConstraint.ofVersion? v false).map fun c => ((package.text.toList, some c), []) := by
  have hchars : ∀ c ∈ package.text.toList ++ '-' :: v.render, isVersionedChar c = true := by
    rw [List.forall_mem_append, List.forall_mem_cons]
    exact ⟨fun c hc => isWordChar_mono (package.isWordChar_of_mem c hc), by decide,
      fun c => Version.isVersionedChar_of_mem⟩
  unfold readPackage
  rw [List.takeWhile_eq_self_iff.2 hchars, List.dropWhile_eq_nil_iff.2 hchars,
    splitPackage?_versioned]
  cases VersionConstraint.ofVersion? v false <;> rfl

theorem QualifiedName.toList_versioned (n : QualifiedName) (v : Version) :
    (n.versioned v).toList =
      n.category.text.toList ++ '/' :: (n.package.text.toList ++ '-' :: v.render) := by
  simp [versioned, text]

theorem readNamed_versioned_of_some {v : Version} {c : VersionConstraint}
    (hc : VersionConstraint.ofVersion? v false = some c) (n : QualifiedName) :
    readNamed true (n.versioned v).toList =
      .ok ((n.category.text.toList, n.package.text.toList, some c), []) := by
  unfold readNamed
  rw [n.toList_versioned, readCategory_append]
  simp only [readPackage_versioned, hc, Option.map_some]

/-- Without a version the name is not read at all. -/
theorem readNamed_versioned_of_none {v : Version}
    (hc : VersionConstraint.ofVersion? v false = none) (n : QualifiedName) :
    readNamed true (n.versioned v).toList =
      .error ⟨(n.versioned v).toList, some .packageVersion⟩ := by
  obtain ⟨d, r, htext, hd, -⟩ := isNameOf_iff.1 (Bool.and_eq_true_iff.1 n.package.valid).1
  have hversioned : isVersionedChar d = true := isWordChar_of_isNameStart hd
  unfold readNamed
  rw [n.toList_versioned, readCategory_append]
  simp only [readPackage_versioned, hc, Option.map_none]
  simp [htext, hversioned, namePart]

namespace Atom

/-- The atom that accepts what the constraint accepts with `=`, and of one package only. -/
def exactly (n : QualifiedName) (c : VersionConstraint) : Atom where
  blocker := none
  category := n.category.text
  package := n.package.text
  version := some { c with operator := some .equal }
  slot := none
  uses := none
  repository := none

theorem parse_eq_ok_iff {s : String} {a : Atom} : parse s = .ok a ↔ parse? s = some a := by
  unfold parse parse?
  cases readAll s.toList <;> simp [Except.mapError, Except.toOption]

theorem read_equal {cs category package : List Char} {c : VersionConstraint}
    (h : readNamed true cs = .ok ((category, package, some c), [])) :
    read ('=' :: cs) = .ok (⟨none, String.ofList category, String.ofList package,
      some { c with operator := some .equal }, none, none, none⟩, []) := by
  have hnamed : readNamed (readOperator (readBlocker ('=' :: cs)).2).1.isSome
      (readOperator (readBlocker ('=' :: cs)).2).2 = .ok ((category, package, some c), []) := h
  simp only [read, hnamed, bind, Except.bind]
  rfl

theorem read_equal_of_error {cs : List Char} {stop : Stop} (h : readNamed true cs = .error stop) :
    read ('=' :: cs) = .error stop := by
  have hnamed : readNamed (readOperator (readBlocker ('=' :: cs)).2).1.isSome
      (readOperator (readBlocker ('=' :: cs)).2).2 = .error stop := h
  simp only [read, hnamed, bind, Except.bind]

theorem parse?_versioned (n : QualifiedName) (v : Version) :
    parse? ("=" ++ n.versioned v) = (VersionConstraint.ofVersion? v false).map (exactly n) := by
  have htext : ("=" ++ n.versioned v).toList = '=' :: (n.versioned v).toList := by simp
  unfold parse? readAll
  rw [htext]
  cases hc : VersionConstraint.ofVersion? v false with
  | none =>
    rw [read_equal_of_error (readNamed_versioned_of_none hc n)]
    rfl
  | some c =>
    rw [read_equal (readNamed_versioned_of_some hc n)]
    simp [exactly, Except.toOption]

theorem name_exactly (n : QualifiedName) (c : VersionConstraint) : (exactly n c).name = n.text :=
  rfl

theorem accepts_exactly_iff {n m : QualifiedName} {c : VersionConstraint} (hglob : c.glob = false)
    {w : Version} {repository : String} {slot : Option Slot} :
    (exactly n c).accepts m w repository slot = true ↔
      m = n ∧ w.precedence c.version = .eq := by
  have hversion : (exactly n c).version.all (·.accepts w) = true ↔
      w.precedence c.version = .eq :=
    VersionConstraint.comparesAs_version hglob .equal w
  have hname : ((exactly n c).name == m.text) = true ↔ m = n := by
    rw [name_exactly, beq_iff_eq, QualifiedName.text_inj, eq_comm]
  have haccepts : (exactly n c).accepts m w repository slot =
      ((exactly n c).name == m.text && (exactly n c).version.all (·.accepts w)) := by
    simp [accepts, acceptsApartFromSlot, wantedSlot, exactly]
  rw [haccepts, Bool.and_eq_true, hname, hversion]

end Atom

/-! ## Versions whose numbers can be kept -/

namespace Version

/-- No number is too large for a constraint. -/
def FitsWords (v : Version) : Prop :=
  digitsValue v.major.val < VersionConstraint.numberLimit ∧
  (∀ n ∈ v.minors, digitsValue n.val < VersionConstraint.numberLimit) ∧
  (∀ s ∈ v.suffixes, digitsValue s.number.val < VersionConstraint.numberLimit) ∧
  ∀ n ∈ v.revision, digitsValue n.val < VersionConstraint.numberLimit

end Version

namespace VersionConstraint

theorem isSome_boundedValue?_iff {ds : List Char} :
    (boundedValue? ds).isSome ↔ digitsValue ds < numberLimit := by
  unfold boundedValue?
  split <;> simp [*]

theorem isSome_suffixOf?_iff {s : VersionSuffix} :
    (suffixOf? s).isSome ↔ digitsValue s.number.val < numberLimit := by
  unfold suffixOf?
  split
  · next hnil =>
    rw [hnil]
    exact iff_of_true rfl (by decide)
  · rw [Option.isSome_map, isSome_boundedValue?_iff]

theorem isSome_mapM_iff {α β : Type} {f : α → Option β} {xs : List α} :
    (xs.mapM f).isSome ↔ ∀ x ∈ xs, (f x).isSome := by
  induction xs with
  | nil => simp
  | cons x xs ih =>
    rw [List.mapM_cons, List.forall_mem_cons, ← ih]
    cases f x with
    | none => simp
    | some y => cases xs.mapM f <;> simp

theorem isSome_bind_iff {α β : Type} {o : Option α} {f : α → Option β} {P : Prop}
    (hf : ∀ a, (f a).isSome ↔ P) : (o >>= f).isSome ↔ o.isSome ∧ P := by
  cases o with
  | none => simp
  | some a => simpa using hf a

theorem isSome_ofVersion?_iff {v : Version} {glob : Bool} :
    (ofVersion? v glob).isSome ↔ v.FitsWords := by
  have hminors : (v.minors.mapM fun n => boundedValue? n.val).isSome ↔
      ∀ n ∈ v.minors, digitsValue n.val < numberLimit :=
    isSome_mapM_iff.trans (forall₂_congr fun _ _ => isSome_boundedValue?_iff)
  have hsuffixes : (v.suffixes.mapM suffixOf?).isSome ↔
      ∀ s ∈ v.suffixes, digitsValue s.number.val < numberLimit :=
    isSome_mapM_iff.trans (forall₂_congr fun _ _ => isSome_suffixOf?_iff)
  rw [Version.FitsWords, ← isSome_boundedValue?_iff, ← hminors, ← hsuffixes]
  unfold ofVersion?
  refine isSome_bind_iff fun major => isSome_bind_iff fun minors =>
    isSome_bind_iff fun suffixes => ?_
  cases v.revision with
  | none => simp
  | some n =>
    have hnumber : (∀ m ∈ some n, digitsValue m.val < numberLimit) ↔
        (boundedValue? n.val).isSome ∧ True := by
      simp [isSome_boundedValue?_iff]
    rw [hnumber]
    exact isSome_bind_iff fun _ => by simp

end VersionConstraint

end PackageCatalog
