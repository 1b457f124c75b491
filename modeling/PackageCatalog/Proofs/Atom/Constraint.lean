import PackageCatalog.Atom.Match
import PackageCatalog.Atom.Parser
import PackageCatalog.Proofs.Version.Order

/-!
# Constraints and the order of versions

A constraint is made from the numbers of a version, not from its text, so the version it names is
the normal form of the one that was written:

    ofVersion? v glob = some c  →  c.version = v.normal                (version_of_ofVersion?)

The operators compare with what was written just if no number after the first period lost a zero
that made it a decimal fraction; a star continues the written text just if nothing was lost at all
(`agrees_iff`).
-/

namespace PackageCatalog

/-! ## Normal forms -/

namespace VersionSuffix

/-- The number without leading zeros; no digits remain none. -/
def normal (s : VersionSuffix) : VersionSuffix :=
  if s.number.val = [] then s
  else ⟨s.kind, (Numeral.ofNat (digitsValue s.number.val)).val,
    (Numeral.ofNat (digitsValue s.number.val)).property.2⟩

theorem compareSuffix_normal (a s : VersionSuffix) :
    Version.compareSuffix a s.normal = Version.compareSuffix a s := by
  unfold normal
  split
  · rfl
  · simp only [Version.compareSuffix, Version.compareValues, digitsValue_ofNat]

theorem kind_normal (s : VersionSuffix) : s.normal.kind = s.kind := by
  unfold normal
  split <;> rfl

end VersionSuffix

namespace Version

/-- The version with every number written without leading zeros, and without a revision zero. -/
def normal (v : Version) : Version where
  major := v.major.normal
  minors := v.minors.map Numeral.normal
  letter := v.letter
  suffixes := v.suffixes.map VersionSuffix.normal
  revision := (v.revision.filter fun n => digitsValue n.val ≠ 0).map Numeral.normal

theorem compareValues_normal (a : List Char) (n : Numeral) :
    compareValues a n.normal.val = compareValues a n.val := by
  rw [compareValues, compareValues, Numeral.digitsValue_normal]

theorem compareSuffixes_normal (as ss : List VersionSuffix) :
    compareSuffixes as (ss.map VersionSuffix.normal) = compareSuffixes as ss := by
  induction ss generalizing as with
  | nil => rfl
  | cons s ss ih =>
    cases as with
    | nil => simp [compareSuffixes, VersionSuffix.kind_normal]
    | cons a as => simp [compareSuffixes, VersionSuffix.compareSuffix_normal, ih]

theorem compareMinors_normal {ns : List Numeral} (h : ∀ n ∈ ns, ¬ n.Padded) (as : List Numeral) :
    compareMinors as (ns.map Numeral.normal) = compareMinors as ns := by
  induction ns generalizing as with
  | nil => rfl
  | cons n ns ih =>
    obtain ⟨hn, hns⟩ := List.forall_mem_cons.1 h
    cases as with
    | nil => rfl
    | cons a as => simp only [List.map_cons, compareMinors, compareMinor_normal hn, ih hns]

theorem not_padded_of_compareMinors_normal {ns : List Numeral}
    (h : compareMinors ns (ns.map Numeral.normal) = .eq) : ∀ n ∈ ns, ¬ n.Padded := by
  induction ns with
  | nil => exact nofun
  | cons n ns ih =>
    obtain ⟨hn, hns⟩ := Ordering.then_eq_eq.1 h
    exact List.forall_mem_cons.2 ⟨fun hpadded => compareMinor_normal_ne hpadded hn, ih hns⟩

theorem compareValues_revisionDigits_normal (a : List Char) (v : Version) :
    compareValues a v.normal.revisionDigits = compareValues a v.revisionDigits := by
  have hvalue : digitsValue v.normal.revisionDigits = digitsValue v.revisionDigits := by
    unfold revisionDigits normal
    cases hr : v.revision with
    | none => rfl
    | some n =>
      by_cases hn : digitsValue n.val = 0
      · simp [Option.filter, hn]
        rfl
      · simp [Option.filter, hn, Numeral.digitsValue_normal]
  rw [compareValues, compareValues, hvalue]

theorem baseOrder_normal {v : Version} (h : ∀ n ∈ v.minors, ¬ n.Padded) (a : Version) :
    baseOrder a v.normal = baseOrder a v := by
  simp only [baseOrder, normal, compareValues_normal, compareMinors_normal h,
    compareSuffixes_normal]

theorem precedence_normal {v : Version} (h : ∀ n ∈ v.minors, ¬ n.Padded) (a : Version) :
    precedence a v.normal = precedence a v := by
  rw [precedence, precedence, baseOrder_normal h, compareValues_revisionDigits_normal]

theorem not_padded_of_precedence_normal {v : Version} (h : precedence v v.normal = .eq) :
    ∀ n ∈ v.minors, ¬ n.Padded := by
  have hbase := (Ordering.then_eq_eq.1 h).1
  have hminors := (Ordering.then_eq_eq.1 (Ordering.then_eq_eq.1 hbase).2).1
  exact not_padded_of_compareMinors_normal hminors

end Version

/-! ## What a constraint names -/

namespace VersionConstraint

theorem eq_of_boundedValue? {ds : List Char} {n : Nat} (h : boundedValue? ds = some n) :
    n = digitsValue ds := by
  unfold boundedValue? at h
  split at h
  · exact (Option.some.inj h).symm
  · cases h

theorem suffixVersion_of_suffixOf? {s : VersionSuffix} {c : ConstraintSuffix}
    (h : suffixOf? s = some c) : suffixVersion c = s.normal := by
  obtain ⟨kind, ⟨ds, hds⟩⟩ := s
  unfold suffixOf? at h
  unfold VersionSuffix.normal
  split at h
  · next hnil =>
    cases h
    cases hnil
    rfl
  · next hne =>
    obtain ⟨n, hn, rfl⟩ := Option.map_eq_some_iff.1 h
    cases eq_of_boundedValue? hn
    rw [if_neg hne]
    rfl

/-- Where every element of a list has a value, the values are what `g` makes of the elements. -/
theorem map_eq_of_mapM {α β γ : Type} {f : α → Option β} {g : β → γ} {k : α → γ}
    (hf : ∀ a b, f a = some b → g b = k a) {as : List α} {bs : List β}
    (h : as.mapM f = some bs) : bs.map g = as.map k := by
  induction as generalizing bs with
  | nil =>
    cases h
    rfl
  | cons a as ih =>
    rw [List.mapM_cons] at h
    obtain ⟨b, hb, h⟩ := Option.bind_eq_some_iff.1 h
    obtain ⟨rest, hrest, h⟩ := Option.bind_eq_some_iff.1 h
    cases h
    rw [List.map_cons, List.map_cons, hf a b hb, ih hrest]

theorem version_of_ofVersion? {v : Version} {glob : Bool} {c : VersionConstraint}
    (h : ofVersion? v glob = some c) : c.version = v.normal ∧ c.glob = glob := by
  unfold ofVersion? at h
  obtain ⟨major, hmajor, h⟩ := Option.bind_eq_some_iff.1 h
  obtain ⟨minors, hminors, h⟩ := Option.bind_eq_some_iff.1 h
  obtain ⟨suffixes, hsuffixes, h⟩ := Option.bind_eq_some_iff.1 h
  have hrevision : ∃ revision, (if revision = 0 then none else some (Numeral.ofNat revision)) =
        (v.revision.filter fun n => digitsValue n.val ≠ 0).map Numeral.normal ∧
      ⟨none, major, minors, v.letter, suffixes, revision, glob⟩ = c := by
    cases hr : v.revision with
    | none =>
      rw [hr] at h
      exact ⟨0, rfl, Option.some.inj h⟩
    | some n =>
      rw [hr] at h
      obtain ⟨revision, hread, h⟩ := Option.bind_eq_some_iff.1 h
      cases eq_of_boundedValue? hread
      refine ⟨_, ?_, Option.some.inj h⟩
      by_cases hn : digitsValue n.val = 0 <;> simp [Option.filter, hn, Numeral.normal]
  obtain ⟨revision, hrevision, rfl⟩ := hrevision
  have hmin : minors.map Numeral.ofNat = v.minors.map Numeral.normal :=
    map_eq_of_mapM (fun n m hm => by rw [eq_of_boundedValue? hm]; rfl) hminors
  have hsuf : suffixes.map suffixVersion = v.suffixes.map VersionSuffix.normal :=
    map_eq_of_mapM (fun _ _ => suffixVersion_of_suffixOf?) hsuffixes
  refine ⟨?_, rfl⟩
  unfold version Version.normal
  simp only [hmin, hsuf, hrevision, eq_of_boundedValue? hmajor, Numeral.normal]

/-! ## Agreement with the text -/

end VersionConstraint

/-- How an operator relates a candidate to the version that stands behind it. -/
def Operator.Relates (op : Operator) (candidate wanted : Version) : Prop :=
  match op with
  | .less => candidate.precedence wanted = .lt
  | .lessOrEqual => candidate.precedence wanted ≠ .gt
  | .equal => candidate.precedence wanted = .eq
  | .approximate => candidate.baseOrder wanted = .eq
  | .greaterOrEqual => candidate.precedence wanted ≠ .lt
  | .greater => candidate.precedence wanted = .gt

theorem Operator.relates_normal {v : Version} (h : ∀ n ∈ v.minors, ¬ n.Padded) (op : Operator)
    (candidate : Version) : op.Relates candidate v.normal ↔ op.Relates candidate v := by
  unfold Relates
  rw [Version.precedence_normal h, Version.baseOrder_normal h]

namespace VersionConstraint

/-- With each operator the constraint accepts what the operator relates to `v`. -/
def ComparesAs (c : VersionConstraint) (v : Version) : Prop :=
  ∀ (op : Operator) (candidate : Version),
    { c with operator := some op }.accepts candidate = true ↔ op.Relates candidate v

/-- With `=` and a star the constraint accepts the versions whose text starts with `s`. -/
def ContinuesAs (c : VersionConstraint) (s : String) : Prop :=
  ∀ candidate : Version, { c with operator := some .equal, glob := true }.accepts candidate = true ↔
    s.toList <+: candidate.text.toList

theorem comparesAs_version {c : VersionConstraint} (hglob : c.glob = false) :
    c.ComparesAs c.version := by
  intro op candidate
  have hversion : ({ c with operator := some op }).version = c.version := rfl
  unfold accepts
  rw [hversion]
  cases op <;> simp [Operator.Relates, hglob]

theorem continuesAs_version (c : VersionConstraint) : c.ContinuesAs c.version.text := by
  intro candidate
  have hversion : ({ c with operator := some .equal, glob := true }).version = c.version := rfl
  unfold accepts
  rw [hversion]
  simp

theorem ofChars?_text (v : Version) : ofChars? v.text.toList = ofVersion? v false := by
  have hwhole : Version.read? v.render = some (v, []) := by
    have h := Version.ofChars?_render v
    unfold Version.ofChars? at h
    split at h
    · next w hread =>
      cases h
      exact hread
    · cases h
  unfold ofChars?
  rw [Version.toList_text, hwhole]

/-- A text that is a version and a constraint: the operators compare with the version, and `=`
accepts the version itself, just if no number after the first period has a leading zero that counts;
a star continues the text just if the version is in normal form. -/
theorem agrees_iff {s : String} {v : Version} {c : VersionConstraint}
    (hv : Version.parse s = .ok v) (hc : ofChars? s.toList = some c) :
    (c.ComparesAs v ↔ ∀ n ∈ v.minors, ¬ n.Padded) ∧
    ({ c with operator := some .equal }.accepts v = true ↔ ∀ n ∈ v.minors, ¬ n.Padded) ∧
    (c.ContinuesAs s ↔ v.normal = v) := by
  cases Version.parse_eq_ok_iff.1 hv
  rw [ofChars?_text] at hc
  obtain ⟨hversion, hglob⟩ := version_of_ofVersion? hc
  have hcompares := comparesAs_version hglob
  have hcontinues := continuesAs_version c
  rw [hversion] at hcompares hcontinues
  have hself : { c with operator := some .equal }.accepts v = true ↔
      ∀ n ∈ v.minors, ¬ n.Padded := by
    rw [hcompares .equal v]
    constructor
    · exact Version.not_padded_of_precedence_normal
    · intro h
      exact (Operator.relates_normal h .equal v).2 (Version.precedence_self v)
  refine ⟨⟨fun h => ?_, fun h op candidate => ?_⟩, hself, ⟨fun h => ?_, fun h => ?_⟩⟩
  · exact hself.1 ((h .equal v).2 (Version.precedence_self v))
  · rw [hcompares op candidate, Operator.relates_normal h]
  · -- each text continues the other
    have hforth := (hcontinues v).1 ((h v).2 List.prefix_rfl)
    have hback := (h v.normal).1 ((hcontinues v.normal).2 List.prefix_rfl)
    rw [Version.toList_text, Version.toList_text] at hforth hback
    exact Version.render_injective
      (hforth.eq_of_length (Nat.le_antisymm hforth.length_le hback.length_le))
  · rw [h] at hcontinues
    exact hcontinues

/-! ### The constraint `1.01` names `1.1` -/

def fractionVersion : Version :=
  ⟨⟨['1'], nofun, List.all_eq_true.1 (by decide)⟩,
    [⟨['0', '1'], nofun, List.all_eq_true.1 (by decide)⟩], none, [], none⟩

def fractionConstraint : VersionConstraint := ⟨none, 1, [1], none, [], 0, false⟩

theorem parse_fraction : Version.parse "1.01" = .ok fractionVersion :=
  Version.parse_eq_ok_iff.2 (by decide)

theorem ofChars?_fraction : ofChars? "1.01".toList = some fractionConstraint := by
  rw [show "1.01" = fractionVersion.text by decide, ofChars?_text]
  decide

theorem agrees_iff_fraction :
    Version.parse "1.01" = .ok fractionVersion ∧
    ofChars? "1.01".toList = some fractionConstraint ∧
    ((fractionConstraint.ComparesAs fractionVersion ↔ ∀ n ∈ fractionVersion.minors, ¬ n.Padded) ∧
    ({ fractionConstraint with operator := some .equal }.accepts fractionVersion = true ↔
      ∀ n ∈ fractionVersion.minors, ¬ n.Padded) ∧
    (fractionConstraint.ContinuesAs "1.01" ↔ fractionVersion.normal = fractionVersion)) :=
  ⟨parse_fraction, ofChars?_fraction, agrees_iff parse_fraction ofChars?_fraction⟩

/-- The constraint accepts neither with `=` nor with a star the version from whose text it was
read. -/
theorem not_agrees_fraction :
    Version.parse "1.01" = .ok fractionVersion ∧
    ofChars? "1.01".toList = some fractionConstraint ∧
    ¬ { fractionConstraint with operator := some .equal }.accepts fractionVersion = true ∧
    ¬ fractionConstraint.ComparesAs fractionVersion ∧ ¬ fractionConstraint.ContinuesAs "1.01" := by
  have hself : ¬ { fractionConstraint with operator := some .equal }.accepts fractionVersion =
      true := by decide
  refine ⟨parse_fraction, ofChars?_fraction, hself, fun h => ?_, fun h => ?_⟩
  · exact hself ((h .equal fractionVersion).2 (Version.precedence_self fractionVersion))
  · have htext : fractionVersion.text.toList = "1.01".toList := by decide +kernel
    have hprefix : "1.01".toList <+: fractionVersion.text.toList := htext ▸ List.prefix_rfl
    exact absurd ((h fractionVersion).2 hprefix) (by decide)

end VersionConstraint

end PackageCatalog
