import Mathlib.Data.List.Pairwise
import PackageCatalog.Proofs.Profile.ParentsFirst

/-!
# Directories that a profile reads once

The files of every directory in the list of a profile are read once, in the order of the list.  The
list holds a path once, but two paths may lead to one directory, by way of `..` for instance, and
then its files are read twice.  No directory is read twice exactly if paths that lead to one
directory are spelled alike:

    EachOnce t p.dirs ↔ SpelledAlike t starts                          (load_eachOnce_iff)

A directory has the same parents under each of its spellings, up to the spelling of the parents
(`names_of_same`), so the list has every path to which the start directories lead
(`ParentsFirst.same_of_reached`).
-/

namespace PackageCatalog.Profile

variable {σ : Type} {t : FileTree} {starts dirs : List String}

/-- No two of these paths lead to the same directory. -/
def EachOnce (t : FileTree) (dirs : List String) : Prop :=
  dirs.Pairwise fun a b => t.locate a ≠ t.locate b

/-- Paths to which the start directories lead are the same if they lead to one place. -/
def SpelledAlike (t : FileTree) (starts : List String) : Prop :=
  ∀ a b place, Reached t starts a → Reached t starts b → t.locate a = .ok place →
    t.locate b = .ok place → Path.same a b = true

theorem isName_parent : Path.IsName "parent" := by constructor <;> decide

/-- The parents of a directory are its parents under any other spelling. -/
theorem names_of_same {a b path : String} {parents : List String} (hdir : t.isDirectory a = true)
    (hparents : parentsOf t a = .ok parents) (hsame : Path.same a b = true)
    (hpath : Names t b path) : ∃ parent ∈ parents, Path.same path parent = true := by
  obtain ⟨parents', hparents', hmem⟩ := hpath
  obtain ⟨text?, htext, rfl⟩ := Scan.map_eq_ok_iff.1 hparents
  obtain ⟨text?', htext', rfl⟩ := Scan.map_eq_ok_iff.1 hparents'
  obtain ⟨line, hline, rfl⟩ := List.mem_map.1 hmem
  cases text?' with
  | none => cases hline
  | some text =>
    have hread : t.readText (Path.join b "parent") = .ok text := Scan.content_eq_some_iff.1 htext'
    have hread' : t.readText (Path.join a "parent") = .ok text := by
      rcases FileTree.find_join_of_same isName_parent hsame hdir
        (FileTree.readText_eq_ok_iff.1 hread) with hfind | hfind
      · exact FileTree.readText_eq_ok_iff.2 hfind
      · unfold Scan.content FileTree.readText at htext
        rw [hfind] at htext
        cases htext
    cases htext.symm.trans (Scan.content_eq_some_iff.2 hread')
    exact ⟨_, List.mem_map_of_mem hline, Path.same_join (Path.same_symm hsame) line⟩

/-- Every path to which the start directories lead is in the list, under some spelling. -/
theorem ParentsFirst.same_of_reached (h : ParentsFirst t starts dirs) {path : String}
    (hpath : Reached t starts path) : ∃ dir ∈ dirs, Path.same path dir = true := by
  obtain ⟨start, hstart, hway⟩ := hpath
  induction hway with
  | refl => exact h.start start hstart
  | tail _ hnames ih =>
    obtain ⟨dir, hdir, hsame⟩ := ih
    obtain ⟨hisDirectory, parents, hparents, hclosed⟩ := h.closed dir hdir
    obtain ⟨parent, hparent, hsame'⟩ :=
      names_of_same hisDirectory hparents (Path.same_symm hsame) hnames
    obtain ⟨dir', hdir', hsame''⟩ := hclosed parent hparent
    exact ⟨dir', hdir', Path.same_trans hsame' hsame''⟩

theorem ParentsFirst.locate_eq (h : ParentsFirst t starts dirs) {dir : String} (hdir : dir ∈ dirs) :
    t.locate dir = .ok (FileTree.placeOf dir) := by
  have hisDirectory := (h.closed dir hdir).1
  obtain ⟨place, hplace, -⟩ := FileTree.find_eq_ok_iff.1 (FileTree.isDirectory_iff.1 hisDirectory)
  rw [hplace, FileTree.locate_eq_placeOf hplace]

theorem ParentsFirst.eachOnce_iff (h : ParentsFirst t starts dirs) :
    EachOnce t dirs ↔ SpelledAlike t starts := by
  constructor
  · intro honce a b place ha hb hplace hplace'
    obtain ⟨dir, hdir, hsame⟩ := h.same_of_reached ha
    obtain ⟨dir', hdir', hsame'⟩ := h.same_of_reached hb
    have heq : t.locate dir = t.locate dir' := by
      rw [h.locate_eq hdir, h.locate_eq hdir', ← FileTree.placeOf_eq_of_same hsame,
        ← FileTree.placeOf_eq_of_same hsame', ← FileTree.locate_eq_placeOf hplace,
        ← FileTree.locate_eq_placeOf hplace']
    have hsymm : Std.Symm fun a b : String => t.locate a ≠ t.locate b := ⟨fun _ _ hab => hab.symm⟩
    have hone : dir = dir' := Decidable.byContradiction fun hne =>
      honce.forall hdir hdir' hne heq
    subst hone
    exact Path.same_trans hsame (Path.same_symm hsame')
  · intro halike
    refine h.distinct.imp_of_mem fun {a b} ha hb hdiffer heq => ?_
    have hb' : t.locate b = .ok (FileTree.placeOf a) := heq ▸ h.locate_eq ha
    have hsame := halike a b _ (h.reached a ha) (h.reached b hb) (h.locate_eq ha) hb'
    exact Bool.false_ne_true (hdiffer.symm.trans hsame)

/-- The files of each directory in the list are read once; each directory is there once if paths to
it are spelled alike, and only then. -/
theorem load_eachOnce_iff {p : Profile} {j : Journal σ} (h : ((load starts).on t j).1 = .ok p) :
    Holds t p ∧ (EachOnce t p.dirs ↔ SpelledAlike t starts) :=
  ⟨load_holds h, (parentsFirst_dirs h).eachOnce_iff⟩

/-! ## Diamonds -/

/-- Two parents of one directory that have a parent in common; it enables a flag that one of them
disables. -/
def diamondTree (base : String) : FileTree :=
  ⟨⟨[(["p"], .directory), (["p", "base"], .directory),
    (["p", "base", "make.defaults"], .text "USE=foo\n"), (["p", "b"], .directory),
    (["p", "b", "parent"], .text base), (["p", "b", "make.defaults"], .text "USE=-foo\n"),
    (["p", "c"], .directory), (["p", "c", "parent"], .text base), (["p", "x"], .directory),
    (["p", "x", "parent"], .text "../b\n../c\n")]⟩⟩

/-- The list and the flags of the profile at the end of a diamond. -/
def diamondProfile (base : String) : Except Error (List String × String) :=
  ((load ["/p/x"]).on (diamondTree base) (⟨(), []⟩ : Journal Unit)).1.map fun p =>
    (p.dirs, p.value "USE")

theorem load_eachOnce_iff_diamondTree :
    ∃ p, ((load ["/p/x"]).on (diamondTree "/p/base\n") (⟨(), []⟩ : Journal Unit)).1 = .ok p ∧
      p.value "USE" = "" ∧ Holds (diamondTree "/p/base\n") p ∧
      EachOnce (diamondTree "/p/base\n") p.dirs ∧
      SpelledAlike (diamondTree "/p/base\n") ["/p/x"] := by
  have hprofile : (diamondProfile "/p/base\n").toOption =
      some (["/p/base", "/p/x/../b", "/p/x/../c", "/p/x"], "") := by decide +kernel
  obtain ⟨p, hp, heq⟩ := Scan.map_eq_ok_iff.1 (Scan.toOption_eq_some_iff.1 hprofile)
  obtain ⟨hdirs, hvalue⟩ := Prod.mk.inj heq
  have hplaces : (["/p/base", "/p/x/../b", "/p/x/../c", "/p/x"].map fun dir =>
      ((diamondTree "/p/base\n").locate dir).toOption).Nodup := by decide +kernel
  have honce : EachOnce (diamondTree "/p/base\n") p.dirs := by
    rw [hdirs]
    exact (List.pairwise_map.1 hplaces).imp fun hne hplace => hne (congrArg Except.toOption hplace)
  obtain ⟨hholds, hiff⟩ := load_eachOnce_iff hp
  exact ⟨p, hp, hvalue, hholds, honce, hiff.1 honce⟩

/-- The base that is named relative to two directories is read twice, and the flag is enabled again. -/
theorem not_eachOnce_diamondTree :
    ∃ p, ((load ["/p/x"]).on (diamondTree "../base\n") (⟨(), []⟩ : Journal Unit)).1 = .ok p ∧
      ¬ EachOnce (diamondTree "../base\n") p.dirs ∧ p.value "USE" = "foo" := by
  have hprofile : (diamondProfile "../base\n").toOption =
      some (["/p/x/../b/../base", "/p/x/../b", "/p/x/../c/../base", "/p/x/../c", "/p/x"], "foo") := by
    decide +kernel
  obtain ⟨p, hp, heq⟩ := Scan.map_eq_ok_iff.1 (Scan.toOption_eq_some_iff.1 hprofile)
  obtain ⟨hdirs, hvalue⟩ := Prod.mk.inj heq
  have hfirst : ((diamondTree "../base\n").locate "/p/x/../b/../base").toOption =
      some ["p", "base"] := by decide +kernel
  have hsecond : ((diamondTree "../base\n").locate "/p/x/../c/../base").toOption =
      some ["p", "base"] := by decide +kernel
  refine ⟨p, hp, fun honce => ?_, hvalue⟩
  rw [hdirs] at honce
  refine (List.pairwise_cons.1 honce).1 "/p/x/../c/../base" (by decide) ?_
  rw [Scan.toOption_eq_some_iff.1 hfirst, Scan.toOption_eq_some_iff.1 hsecond]

end PackageCatalog.Profile
