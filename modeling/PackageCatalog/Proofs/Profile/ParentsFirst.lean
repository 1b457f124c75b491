import Mathlib.Logic.Relation
import PackageCatalog.Proofs.Files.Spellings
import PackageCatalog.Proofs.Profile.Contents

/-!
# The order of profile directories

The directories of a profile are those to which its start directories lead by `parent` files, each
path once, and a directory comes after its parents unless these lead back to it:

    p is loaded from starts → ParentsFirst t starts p.dirs                    (load_parentsFirst)

`Adds t s paths s' new` says what visiting the paths adds to a stack.  While a directory is visited
it is entered, but not yet on the stack: such a directory is open, and only an open directory can be
missing before one that names it.
-/

namespace PackageCatalog.Profile

open Relation (ReflTransGen TransGen)

variable {σ : Type} {t : FileTree}

/-! ## Parents -/

/-- One of these directories is a parent, perhaps under another spelling. -/
def IsParent (t : FileTree) (dirs : List String) (dir parent : String) : Prop :=
  parent ∈ dirs ∧ ∃ path, Names t dir path ∧ Path.same path parent = true

/-- One of the start directories leads to this path by `parent` files. -/
def Reached (t : FileTree) (starts : List String) (dir : String) : Prop :=
  ∃ start ∈ starts, ReflTransGen (Names t) start dir

/-- No directory leads back to itself. -/
def Acyclic (t : FileTree) (dirs : List String) : Prop :=
  ∀ dir ∈ dirs, ¬ TransGen (IsParent t dirs) dir dir

/-- The directories are those to which the start directories lead, each path once, and parents stand
before the directories that name them unless there is a cycle. -/
structure ParentsFirst (t : FileTree) (starts dirs : List String) : Prop where
  start : ∀ path ∈ starts, ∃ dir ∈ dirs, Path.same path dir = true
  closed : ∀ dir ∈ dirs, t.isDirectory dir = true ∧ ∃ parents, parentsOf t dir = .ok parents ∧
    ∀ path ∈ parents, ∃ parent ∈ dirs, Path.same path parent = true
  reached : ∀ dir ∈ dirs, Reached t starts dir
  distinct : dirs.Pairwise fun a b => Path.same a b = false
  ordered : Acyclic t dirs → ∀ dir ∈ dirs, ∀ path, Names t dir path →
    ∃ parent, Path.same path parent = true ∧ [parent, dir].Sublist dirs

/-! ## What visits add -/

/-- A directory that was entered and is not on the stack. -/
def Stack.Open (s : Stack) (dir : String) : Prop := dir ∈ s.entered ∧ dir ∉ s.dirs

theorem Stack.sublist_put (s : Stack) (dir : String) : s.dirs.Sublist (s.put dir).dirs :=
  List.sublist_append_left _ _

/-- Where the path that a directory names is found: before the directory, among those that were open
before, or on a cycle. -/
def Placed (t : FileTree) (s : Stack) (dirs : List String) (dir path : String) : Prop :=
  ∃ parent, Path.same path parent = true ∧ ([parent, dir].Sublist dirs ∨ s.Open parent ∨
    parent ∈ dirs ∧ ReflTransGen (IsParent t dirs) parent dir)

/-- Visiting the paths puts the new directories on the stack. -/
structure Adds (t : FileTree) (s : Stack) (paths : List String) (s' : Stack) (new : List String) :
    Prop where
  dirs : s'.dirs = s.dirs ++ new
  entered : s'.entered.Perm (s.entered ++ new)
  knows : ∀ path ∈ paths, s'.Knows path
  distinct : s.entered.Pairwise (fun a b => Path.same a b = false) →
    s'.entered.Pairwise fun a b => Path.same a b = false
  read : ∀ dir ∈ new, t.isDirectory dir = true ∧ ∃ parents, parentsOf t dir = .ok parents
  reached : ∀ dir ∈ new, ∃ path ∈ paths, path ∈ s'.dirs ∧
    ReflTransGen (fun a b => Names t a b ∧ b ∈ s'.dirs) path dir
  placed : ∀ dir ∈ new, ∀ path, Names t dir path → Placed t s s'.dirs dir path

theorem IsParent.mono {dirs dirs' : List String} (h : dirs ⊆ dirs') {dir parent : String}
    (hparent : IsParent t dirs dir parent) : IsParent t dirs' dir parent :=
  ⟨h hparent.1, hparent.2⟩

theorem Placed.mono {s : Stack} {dirs dirs' : List String} (h : dirs.Sublist dirs')
    {dir path : String} (hplaced : Placed t s dirs dir path) : Placed t s dirs' dir path := by
  obtain ⟨parent, hsame, hbefore | hopen | ⟨hmem, hcycle⟩⟩ := hplaced
  · exact ⟨parent, hsame, .inl (hbefore.trans h)⟩
  · exact ⟨parent, hsame, .inr (.inl hopen)⟩
  · exact ⟨parent, hsame, .inr (.inr ⟨h.subset hmem,
      ReflTransGen.mono (fun _ _ => .mono h.subset) _ _ hcycle⟩)⟩

namespace Adds

variable {s s₁ s₂ s' : Stack} {paths paths' new new' : List String} {dir : String}

theorem nil : Adds t s [] s [] where
  dirs := (List.append_nil _).symm
  entered := by rw [List.append_nil]
  knows := nofun
  distinct h := h
  read := nofun
  reached := nofun
  placed := nofun

theorem again (hknown : s.Knows dir) (h : Adds t s paths s' new) : Adds t s (dir :: paths) s' new :=
  { h with
    knows := by
      obtain ⟨e, he, hsame⟩ := hknown
      exact List.forall_mem_cons.2
        ⟨⟨e, h.entered.mem_iff.2 (List.mem_append_left _ he), hsame⟩, h.knows⟩
    reached := fun dir hdir =>
      have ⟨path, hpath, hreached⟩ := h.reached dir hdir
      ⟨path, List.mem_cons_of_mem _ hpath, hreached⟩ }

/-- What is open between two visits was open before the first. -/
theorem open_of_open (h : Adds t s paths s₁ new) {e : String} (he : s₁.Open e) : s.Open e := by
  obtain ⟨hentered, hdirs⟩ := he
  rw [h.dirs, List.mem_append, not_or] at hdirs
  rw [h.entered.mem_iff, List.mem_append] at hentered
  exact ⟨hentered.resolve_right hdirs.2, hdirs.1⟩

theorem append (h : Adds t s paths s₁ new) (h' : Adds t s₁ paths' s₂ new') :
    Adds t s (paths ++ paths') s₂ (new ++ new') := by
  have hdirs : s₁.dirs.Sublist s₂.dirs := h'.dirs ▸ List.sublist_append_left _ _
  refine ⟨?_, ?_, fun path hpath => ?_, fun hs => h'.distinct (h.distinct hs), fun dir hdir => ?_,
    fun dir hdir => ?_, fun dir hdir path hpath => ?_⟩
  · rw [h'.dirs, h.dirs, List.append_assoc]
  · rw [← List.append_assoc]
    exact h'.entered.trans (h.entered.append_right new')
  · rcases List.mem_append.1 hpath with hpath | hpath
    · obtain ⟨e, he, hsame⟩ := h.knows path hpath
      exact ⟨e, h'.entered.mem_iff.2 (List.mem_append_left _ he), hsame⟩
    · exact h'.knows path hpath
  · exact (List.mem_append.1 hdir).elim (h.read dir) (h'.read dir)
  · rcases List.mem_append.1 hdir with hdir | hdir
    · obtain ⟨path, hpath, hmem, hreached⟩ := h.reached dir hdir
      exact ⟨path, List.mem_append_left _ hpath, hdirs.subset hmem,
        ReflTransGen.mono (fun _ _ hstep => ⟨hstep.1, hdirs.subset hstep.2⟩) _ _ hreached⟩
    · obtain ⟨path, hpath, hreached⟩ := h'.reached dir hdir
      exact ⟨path, List.mem_append_right _ hpath, hreached⟩
  · rcases List.mem_append.1 hdir with hdir | hdir
    · exact (h.placed dir hdir path hpath).mono hdirs
    · obtain ⟨parent, hsame, hbefore | hopen | hcycle⟩ := h'.placed dir hdir path hpath
      · exact ⟨parent, hsame, .inl hbefore⟩
      · exact ⟨parent, hsame, .inr (.inl (h.open_of_open hopen))⟩
      · exact ⟨parent, hsame, .inr (.inr hcycle)⟩

section
variable {parents : List String} (hparents : parentsOf t dir = .ok parents)
  (h : Adds t (s.enter dir) parents s₁ new)
include h

theorem entered_put : (s₁.put dir).entered.Perm (s.entered ++ (new ++ [dir])) := by
  have hentered : (s.enter dir).entered ++ new = s.entered ++ ([dir] ++ new) := List.append_assoc ..
  exact h.entered.trans (hentered ▸ List.perm_append_comm.append_left _)

include hparents

/-- From the directory, what its parents add is reached by way of the parents. -/
theorem reached_put {d : String} (hd : d ∈ new ++ [dir]) :
    ReflTransGen (fun a b => Names t a b ∧ b ∈ (s₁.put dir).dirs) dir d := by
  rcases List.mem_append.1 hd with hd | hd
  · obtain ⟨path, hpath, hmem, hway⟩ := h.reached d hd
    exact .head ⟨⟨parents, hparents, hpath⟩, (s₁.sublist_put dir).subset hmem⟩
      (ReflTransGen.mono (fun _ _ hstep => ⟨hstep.1, (s₁.sublist_put dir).subset hstep.2⟩) _ _ hway)
  · rw [List.mem_singleton.1 hd]

/-- What was open when the parents were visited was open before, or it is the directory itself, and
then there is a cycle. -/
theorem placed_put {d path : String} (hd : d ∈ new ++ [dir]) (hpath : Names t d path) :
    Placed t s (s₁.put dir).dirs d path := by
  have hlast : dir ∈ (s₁.put dir).dirs := List.mem_append_right _ List.mem_cons_self
  have hcycle : ReflTransGen (IsParent t (s₁.put dir).dirs) dir d :=
    ReflTransGen.mono (fun _ b hstep => ⟨hstep.2, b, hstep.1, Path.same_refl b⟩) _ _
      (h.reached_put hparents hd)
  rcases List.mem_append.1 hd with hnew | hdir
  · obtain ⟨parent, hsame, hbefore | ⟨hin, hout⟩ | ⟨hmem, hback⟩⟩ := h.placed d hnew path hpath
    · exact ⟨parent, hsame, .inl (hbefore.trans (s₁.sublist_put dir))⟩
    · rcases List.mem_append.1 hin with hin | hin
      · exact ⟨parent, hsame, .inr (.inl ⟨hin, hout⟩)⟩
      · rw [List.mem_singleton.1 hin] at hsame
        exact ⟨dir, hsame, .inr (.inr ⟨hlast, hcycle⟩)⟩
    · exact ⟨parent, hsame, .inr (.inr ⟨(s₁.sublist_put dir).subset hmem,
        ReflTransGen.mono (fun _ _ => .mono (s₁.sublist_put dir).subset) _ _ hback⟩)⟩
  · rw [List.mem_singleton.1 hdir] at hpath ⊢
    obtain ⟨parents', hparents', hmem⟩ := hpath
    cases hparents.symm.trans hparents'
    obtain ⟨e, he, hsame⟩ := h.knows path hmem
    refine ⟨e, hsame, ?_⟩
    by_cases hput : e ∈ s₁.dirs
    · exact .inl ((List.singleton_sublist.2 hput).append (List.Sublist.refl [dir]))
    · rw [h.dirs, List.mem_append, not_or] at hput
      rw [h.entered.mem_iff, List.mem_append] at he
      rcases List.mem_append.1 (he.resolve_right hput.2) with he | he
      · exact .inr (.inl ⟨he, hput.1⟩)
      · rw [List.mem_singleton.1 he]
        exact .inr (.inr ⟨hlast, .refl⟩)

/-- A directory is put on the stack after what its parents add. -/
theorem put (hnew : ¬ s.Knows dir) (hdir : t.isDirectory dir = true) :
    Adds t s [dir] (s₁.put dir) (new ++ [dir]) where
  dirs := by
    show s₁.dirs ++ [dir] = s.dirs ++ (new ++ [dir])
    rw [h.dirs, ← List.append_assoc]
    rfl
  entered := h.entered_put
  knows := by
    refine List.forall_mem_singleton.2 ⟨dir, h.entered_put.mem_iff.2 ?_, Path.same_refl dir⟩
    exact List.mem_append_right _ (List.mem_append_right _ List.mem_cons_self)
  distinct hs := by
    refine h.distinct (List.pairwise_append.2 ⟨hs, List.pairwise_singleton _ _, ?_⟩)
    intro a ha b hb
    rw [List.mem_singleton.1 hb]
    exact Bool.eq_false_iff.2 fun hsame => hnew ⟨a, ha, Path.same_symm hsame⟩
  read d hd := by
    rcases List.mem_append.1 hd with hd | hd
    · exact h.read d hd
    · rw [List.mem_singleton.1 hd]
      exact ⟨hdir, parents, hparents⟩
  reached d hd := ⟨dir, List.mem_singleton_self dir,
    List.mem_append_right _ List.mem_cons_self, h.reached_put hparents hd⟩
  placed _ hd _ hpath := h.placed_put hparents hd hpath

end

end Adds

theorem Visits.adds {depth : Nat} {s s' : Stack} {paths : List String}
    (h : Visits t depth s paths (.ok s')) : ∃ new, Adds t s paths s' new := by
  generalize hr : (Except.ok s' : Except Error Stack) = r at h
  induction h generalizing s' with
  | done =>
    cases hr
    exact ⟨[], .nil⟩
  | again hahead _ ih =>
    obtain ⟨new, hnew⟩ := ih hr
    exact ⟨new, hnew.again (ahead_eq_none_iff.1 hahead).2⟩
  | refused => cases hr
  | failed => cases hr
  | put hahead _ _ ihparents ihrest =>
    obtain ⟨-, hnew, hdir, hparents⟩ := ahead_eq_some_iff.1 hahead
    obtain ⟨new, hadds⟩ := ihparents rfl
    obtain ⟨new', hadds'⟩ := ihrest hr
    exact ⟨_, (hadds.put hparents hnew hdir).append hadds'⟩

/-- From an empty stack nothing is open, so that only a cycle keeps a parent from coming first. -/
theorem Adds.parentsFirst {starts new : List String} {s : Stack} (h : Adds t {} starts s new) :
    ParentsFirst t starts s.dirs := by
  have hdirs : s.dirs = new := h.dirs
  have hentered : s.entered.Perm s.dirs := hdirs ▸ h.entered
  have hplaced : ∀ dir ∈ s.dirs, ∀ path, Names t dir path → ∃ parent,
      Path.same path parent = true ∧ ([parent, dir].Sublist s.dirs ∨
        parent ∈ s.dirs ∧ ReflTransGen (IsParent t s.dirs) parent dir) := by
    intro dir hdir path hpath
    obtain ⟨parent, hsame, hbefore | ⟨hin, -⟩ | hcycle⟩ := h.placed dir (hdirs ▸ hdir) path hpath
    · exact ⟨parent, hsame, .inl hbefore⟩
    · cases hin
    · exact ⟨parent, hsame, .inr hcycle⟩
  refine ⟨fun path hpath => ?_, fun dir hdir => ?_, fun dir hdir => ?_, ?_,
    fun hacyclic dir hdir path hpath => ?_⟩
  · obtain ⟨e, he, hsame⟩ := h.knows path hpath
    exact ⟨e, hentered.mem_iff.1 he, hsame⟩
  · obtain ⟨hread, parents, hparents⟩ := h.read dir (hdirs ▸ hdir)
    refine ⟨hread, parents, hparents, fun path hpath => ?_⟩
    obtain ⟨parent, hsame, hbefore | ⟨hmem, -⟩⟩ := hplaced dir hdir path ⟨parents, hparents, hpath⟩
    · exact ⟨parent, hbefore.subset List.mem_cons_self, hsame⟩
    · exact ⟨parent, hmem, hsame⟩
  · obtain ⟨path, hpath, -, hreached⟩ := h.reached dir (hdirs ▸ hdir)
    exact ⟨path, hpath, ReflTransGen.mono (fun _ _ hstep => hstep.1) _ _ hreached⟩
  · have hsymm : ∀ {a b : String}, Path.same a b = false → Path.same b a = false := fun hab =>
      Bool.eq_false_iff.2 fun hba => Bool.false_ne_true (hab.symm.trans (Path.same_symm hba))
    exact (hentered.pairwise_iff hsymm).1 (h.distinct List.Pairwise.nil)
  · obtain ⟨parent, hsame, hbefore | ⟨hmem, hcycle⟩⟩ := hplaced dir hdir path hpath
    · exact ⟨parent, hsame, hbefore⟩
    · have hparent : IsParent t s.dirs dir parent := ⟨hmem, path, hpath, hsame⟩
      exact absurd (.head' hparent hcycle) (hacyclic dir hdir)

/-! ## Loaded profiles -/

theorem parentsFirst_dirs {starts : List String} {p : Profile} {j : Journal σ}
    (h : ((load starts).on t j).1 = .ok p) : ParentsFirst t starts p.dirs := by
  obtain ⟨s, hs, hdirs⟩ := load_visits h
  obtain ⟨new, hadds⟩ := hs.adds
  rw [hdirs]
  exact hadds.parentsFirst

/-- Whatever the `parent` files name, visiting the directories ends, and in one way only.  If it
ends with an error, so does loading; the directories of a loaded profile are those it ends with. -/
theorem load_parentsFirst (t : FileTree) (starts : List String) (j : Journal σ) :
    (∃! r, Visits t 0 {} starts r) ∧
      (∀ e, Visits t 0 {} starts (.error e) → ((load starts).on t j).1 = .error e) ∧
      ∀ p, ((load starts).on t j).1 = .ok p →
        ∃ s, Visits t 0 {} starts (.ok s) ∧ p.dirs = s.dirs ∧ ParentsFirst t starts p.dirs := by
  refine ⟨existsUnique_visits t (Nat.zero_le _) {} starts, fun e he => ?_, fun p hp => ?_⟩
  · have hstack := (visits_iff_stack j).1 he
    unfold load
    exact congrArg Prod.fst (Scan.on_bind_of_error (Prod.ext hstack rfl) _)
  · obtain ⟨s, hs, hdirs⟩ := load_visits hp
    exact ⟨s, hs, hdirs, parentsFirst_dirs hp⟩

/-- Two directories that name each other, one of them with another parent. -/
def mutualTree : FileTree :=
  ⟨⟨[(["p"], .directory), (["p", "base"], .directory), (["p", "a"], .directory),
    (["p", "a", "parent"], .text "/p/b\n"), (["p", "b"], .directory),
    (["p", "b", "parent"], .text "/p/a\n/p/base\n")]⟩⟩

theorem load_mutualTree :
    ((load ["/p/a"]).on mutualTree (⟨(), []⟩ : Journal Unit)).1.map Profile.dirs =
        .ok ["/p/base", "/p/b", "/p/a"] ∧
      ParentsFirst mutualTree ["/p/a"] ["/p/base", "/p/b", "/p/a"] := by
  have hload : (((load ["/p/a"]).on mutualTree (⟨(), []⟩ : Journal Unit)).1.map
      Profile.dirs).toOption = some ["/p/base", "/p/b", "/p/a"] := by decide +kernel
  have hdirs := Scan.toOption_eq_some_iff.1 hload
  obtain ⟨p, hp, hp'⟩ := Scan.map_eq_ok_iff.1 hdirs
  obtain ⟨s, -, -, h⟩ := (load_parentsFirst mutualTree ["/p/a"] ⟨(), []⟩).2.2 p hp
  exact ⟨hdirs, hp' ▸ h⟩

end PackageCatalog.Profile
