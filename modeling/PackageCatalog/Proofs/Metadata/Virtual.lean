import PackageCatalog.Metadata.Basic
import PackageCatalog.Proofs.Atom.Exact

/-!
# What the record of a virtual depends on

The record that a virtual has through a provider depends on one atom alone, and that atom names the
provider's version in normal form.  So the provider is what is depended on, and nothing else is, if
and only if no number after the first period of its version is a decimal fraction:

    forVirtual virtualName provider v m = .ok record →
      (record.DependsExactlyOn provider v ↔ ∀ n ∈ v.minors, ¬ n.Padded)
                                                                       (forVirtual_exact_iff)
-/

namespace PackageCatalog.Metadata

variable {m record : Metadata} {n virtualName provider : QualifiedName} {v : Version}

/-- One atom alone is depended on, to build and to run, and whatever the repository and the slot it
accepts the versions of the package that tie with `v`, and nothing else. -/
def DependsExactlyOn (m : Metadata) (n : QualifiedName) (v : Version) : Prop :=
  ∃ a : Atom, m.depend = [.atom a] ∧ m.rdepend = [.atom a] ∧
    ∀ (candidate : QualifiedName) (w : Version) (repository : String) (slot : Option Slot),
      a.accepts candidate w repository slot = true ↔ candidate = n ∧ w.precedence v = .eq

/-! ## The atom -/

theorem atom_of_forVirtual (h : forVirtual virtualName provider v m = .ok record) :
    ∃ c, VersionConstraint.ofVersion? v false = some c ∧
      record.depend = [.atom (Atom.exactly provider c)] ∧
      record.rdepend = [.atom (Atom.exactly provider c)] := by
  unfold forVirtual at h
  cases hparse : Atom.parse ("=" ++ provider.versioned v) with
  | error e =>
    rw [hparse] at h
    cases h
  | ok a =>
    rw [hparse] at h
    cases h
    rw [Atom.parse_eq_ok_iff, Atom.parse?_versioned] at hparse
    obtain ⟨c, hc, rfl⟩ := Option.map_eq_some_iff.1 hparse
    exact ⟨c, hc, rfl, rfl⟩

theorem exists_forVirtual_iff :
    (∃ record, forVirtual virtualName provider v m = .ok record) ↔ v.FitsWords := by
  have hfits : (VersionConstraint.ofVersion? v false).isSome ↔ v.FitsWords :=
    VersionConstraint.isSome_ofVersion?_iff
  rw [← hfits]
  constructor
  · rintro ⟨record, h⟩
    obtain ⟨c, hc, -⟩ := atom_of_forVirtual h
    rw [hc]
    rfl
  · intro h
    obtain ⟨c, hc⟩ := Option.isSome_iff_exists.1 h
    have hparse : Atom.parse ("=" ++ provider.versioned v) = .ok (Atom.exactly provider c) := by
      rw [Atom.parse_eq_ok_iff, Atom.parse?_versioned, hc]
      rfl
    unfold forVirtual
    rw [hparse]
    exact ⟨_, rfl⟩

/-! ## What it accepts -/

theorem dependsExactlyOn_normal (h : forVirtual virtualName provider v m = .ok record) :
    record.DependsExactlyOn provider v.normal := by
  obtain ⟨c, hc, hdepend, hrdepend⟩ := atom_of_forVirtual h
  obtain ⟨hversion, hglob⟩ := VersionConstraint.version_of_ofVersion? hc
  refine ⟨_, hdepend, hrdepend, fun candidate w repository slot => ?_⟩
  rw [Atom.accepts_exactly_iff hglob, hversion]

/-- The normal form of a version ties with what the version ties with, or not even with it. -/
theorem dependsExactlyOn_iff (h : m.DependsExactlyOn n v.normal) :
    m.DependsExactlyOn n v ↔ ∀ k ∈ v.minors, ¬ k.Padded := by
  obtain ⟨a, hdepend, hrdepend, haccepts⟩ := h
  constructor
  · rintro ⟨b, hb, -, hexactly⟩
    obtain rfl : a = b := by
      rw [hdepend] at hb
      simpa using hb
    have hself := (hexactly n v "" none).2 ⟨rfl, Version.precedence_self v⟩
    exact Version.not_padded_of_precedence_normal ((haccepts n v "" none).1 hself).2
  · intro hminors
    refine ⟨a, hdepend, hrdepend, fun candidate w repository slot => ?_⟩
    rw [haccepts, Version.precedence_normal hminors]

/-- A virtual has a record through a provider if no number of the provider's version is too large.
The record depends on exactly the version in normal form, and on exactly the version itself just if
none of its numbers after the first period has a leading zero that counts. -/
theorem forVirtual_exact_iff (virtualName provider : QualifiedName) (v : Version) (m : Metadata) :
    ((∃ record, forVirtual virtualName provider v m = .ok record) ↔ v.FitsWords) ∧
    ∀ record, forVirtual virtualName provider v m = .ok record →
      record.DependsExactlyOn provider v.normal ∧
      (record.DependsExactlyOn provider v ↔ ∀ n ∈ v.minors, ¬ n.Padded) := by
  refine ⟨exists_forVirtual_iff, fun record h => ?_⟩
  have hnormal := dependsExactlyOn_normal h
  exact ⟨hnormal, dependsExactlyOn_iff hnormal⟩

/-! ### The provider `app/p-1.01` -/

def fractionProvider : QualifiedName := ⟨⟨"app", by decide⟩, ⟨"p", by decide⟩⟩

def fractionVirtual : QualifiedName := ⟨⟨"virtuals", by decide⟩, ⟨"v", by decide⟩⟩

def fractionMetadata : Metadata :=
  ⟨"0", "x", ⟨"0", none⟩, [], [], "", [], [], [], [], [], none⟩

theorem fitsWords_fraction : VersionConstraint.fractionVersion.FitsWords :=
  VersionConstraint.isSome_ofVersion?_iff.1
    (show (VersionConstraint.ofVersion? _ false).isSome by decide)

theorem forVirtual_exact_iff_fraction :
    ∃ record, forVirtual fractionVirtual fractionProvider VersionConstraint.fractionVersion
        fractionMetadata = .ok record ∧
      record.DependsExactlyOn fractionProvider VersionConstraint.fractionVersion.normal ∧
      (record.DependsExactlyOn fractionProvider VersionConstraint.fractionVersion ↔
        ∀ n ∈ VersionConstraint.fractionVersion.minors, ¬ n.Padded) := by
  obtain ⟨hexists, hexactly⟩ := forVirtual_exact_iff fractionVirtual fractionProvider
    VersionConstraint.fractionVersion fractionMetadata
  obtain ⟨record, h⟩ := hexists.2 fitsWords_fraction
  exact ⟨record, h, hexactly record h⟩

/-- The record depends on `=app/p-1.1`, which does not accept the version `1.01`. -/
theorem not_exact_fraction :
    ∃ record, forVirtual fractionVirtual fractionProvider VersionConstraint.fractionVersion
        fractionMetadata = .ok record ∧
      ¬ record.DependsExactlyOn fractionProvider VersionConstraint.fractionVersion := by
  obtain ⟨record, h⟩ := exists_forVirtual_iff.2 fitsWords_fraction
  refine ⟨record, h, fun hexactly => ?_⟩
  have hminors := (dependsExactlyOn_iff (dependsExactlyOn_normal h)).1 hexactly
  exact absurd (hminors _ List.mem_cons_self) (by decide)

end PackageCatalog.Metadata
