import PackageCatalog.Proofs.Changes
import PackageCatalog.Repository.Installed

/-!
# Repositories that are invalidated

A repository that is invalidated forgets everything that it remembers, whatever it was asked before
and however the files changed.  From then on it answers like one that is made anew from the same
keys on the files as they are, with one exception: a source repository looks for its directory of
profiles when it is made, and never again (`invalidated_asFresh_iff`).

    made on t, used, invalidated on u  =  made on u
      ↔  (<location>/profiles exists in t  ↔  <location>/profiles exists in u)
-/

namespace PackageCatalog

/-! ## Repositories in use -/

/-- A repository in use: the answers it gives, and what else it does to its memo and the files. -/
structure Service (σ : Type) (Q : Type → Type 1) where
  reply : {α : Type} → Q α → Scan σ α
  freshMemo : σ
  invalidate : Scan σ Unit
  regenerate : Change σ Unit

/-- What happens while a repository is in use. -/
inductive Event (Q : Type → Type 1) : Type 1 where
  | asked {α : Type} (q : Q α)
  | regenerated
  | invalidated
  /-- The files are changed from outside, in any way. -/
  | edited (t : FileTree)

/-- The files, and what a repository remembers of them. -/
structure Situation (σ : Type) where
  files : FileTree
  memo : σ

namespace Service

variable {σ : Type} {Q : Type → Type 1}

/-- A repository was just made. -/
def start (s : Service σ Q) (t : FileTree) : Situation σ := ⟨t, s.freshMemo⟩

/-- The situation after an event, be it a failure or not. -/
def next (s : Service σ Q) (x : Situation σ) : Event Q → Situation σ
  | .asked q => { x with memo := ((s.reply q).run x.files x.memo).2.1 }
  | .regenerated =>
    let w := (s.regenerate.on ⟨x.files, x.memo, []⟩).2
    ⟨w.files, w.memo⟩
  | .invalidated => { x with memo := (s.invalidate.run x.files x.memo).2.1 }
  | .edited t => { x with files := t }

def after (s : Service σ Q) (x : Situation σ) (history : List (Event Q)) : Situation σ :=
  history.foldl s.next x

/-- The answer to a question, and the warnings that come with it. -/
def told {α : Type} (s : Service σ Q) (x : Situation σ) (q : Q α) :
    Except Error α × List Warning :=
  (((s.reply q).run x.files x.memo).1, ((s.reply q).run x.files x.memo).2.2)

/-- No question tells two repositories apart, whatever happens to both of them before it. -/
def Alike (s s' : Service σ Q) (x x' : Situation σ) : Prop :=
  ∀ (history : List (Event Q)) (α : Type) (q : Q α),
    s.told (s.after x history) q = s'.told (s'.after x' history) q

theorem Alike.refl (s : Service σ Q) (x : Situation σ) : s.Alike s x x := fun _ _ _ => rfl

/-- Once it is invalidated, a repository is like one that is made on the files as they are. -/
def AsFresh (make : FileTree → Except Error (Service σ Q)) (s : Service σ Q) (x : Situation σ) :
    Prop :=
  ∃ s', make x.files = .ok s' ∧ s.Alike s' (s.next x .invalidated) (s'.start x.files)

end Service

/-! ## Source repositories -/

/-- What the profiles of a repository are asked, or told to select. -/
inductive ProfileQuestion : Type → Type 1 where
  | directories : ProfileQuestion (List String)
  | available : ProfileQuestion (List ProfileDescriptor)
  | profileAt (k : Nat) : ProfileQuestion (Option Profile)
  | active : ProfileQuestion Profile
  | select (k : Nat) : ProfileQuestion Bool
  | selectByArch (arch : String) : ProfileQuestion ProfileDescriptor
  | value (name : String) : ProfileQuestion String
  | virtuals : ProfileQuestion (List (QualifiedName × Atom))
  | archFlags : ProfileQuestion (List UseFlag)
  | useMask (flag : UseFlag) : ProfileQuestion Bool
  | useForce (flag : UseFlag) : ProfileQuestion Bool
  | mirrors (mirror : String) : ProfileQuestion (List String)
  | mirrorNames : ProfileQuestion (List String)
  | expandedFlags : ProfileQuestion (List UseFlag)
  | expandPrefixes : ProfileQuestion (List String)
  | hiddenExpandPrefixes : ProfileQuestion (List String)
  | expandName (flag : UseFlag) : ProfileQuestion String
  | expandValue (flag : UseFlag) : ProfileQuestion String

def ProfileChain.answer {α : Type} (x : ProfileChain) : ProfileQuestion α → Scan ChainMemo α
  | .directories => return x.profilesDirs
  | .available => x.available
  | .profileAt k => x.profileAt? k
  | .active => x.profile
  | .select k => x.select k
  | .selectByArch arch => x.selectByArch arch
  | .value name => x.value name
  | .virtuals => x.virtuals
  | .archFlags => x.archFlags
  | .useMask flag => x.useMask flag
  | .useForce flag => x.useForce flag
  | .mirrors mirror => x.mirrors mirror
  | .mirrorNames => x.mirrorNames
  | .expandedFlags => x.expandedFlags
  | .expandPrefixes => x.expandPrefixes
  | .hiddenExpandPrefixes => x.hiddenExpandPrefixes
  | .expandName flag => x.expandName flag
  | .expandValue flag => x.expandValue flag

/-- What a source repository is asked. -/
inductive EbuildQuestion : Type → Type 1 where
  | package {α : Type} (q : Question α) : EbuildQuestion α
  | profile {α : Type} (q : ProfileQuestion α) : EbuildQuestion α
  | repositoryMasked (n : QualifiedName) (v : Version) : EbuildQuestion Bool
  | profileMasked (n : QualifiedName) (v : Version) : EbuildQuestion Bool
  | virtualMetadata (e : VirtualEntry) : EbuildQuestion Metadata
  | license (license : String) : EbuildQuestion (Option String)

namespace EbuildRepository

def reply {α : Type} (r : EbuildRepository) : EbuildQuestion α → Scan EbuildMemo α
  | .package q => r.answer q
  | .profile q => EbuildMemo.onProfiles (r.profiles.answer q)
  | .repositoryMasked n v => r.repositoryMasked n v
  | .profileMasked n v => r.profileMasked n v
  | .virtualMetadata e => r.virtualMetadata e
  | .license license => return r.license? (← read) license

def service (r : EbuildRepository) : Service EbuildMemo EbuildQuestion where
  reply := r.reply
  freshMemo := r.freshMemo
  invalidate := r.invalidate
  regenerate := r.regenerate

/-- Nothing that was remembered survives an invalidation. -/
theorem next_invalidated (r : EbuildRepository) (x : Situation EbuildMemo) :
    r.service.next x .invalidated = r.service.start x.files := rfl

/-- The directory of profiles of its own, if it has one. -/
def ownProfiles (r : EbuildRepository) : String := Path.join r.location "profiles"

/-- The directories of profiles that a repository made on a tree has. -/
def profilesDirsIn (r : EbuildRepository) (t : FileTree) : List String :=
  (r.masterLocation.map (Path.join · "profiles")).toList ++
    if t.isPresent r.ownProfiles then [r.ownProfiles] else []

def withProfilesDirs (r : EbuildRepository) (dirs : List String) : EbuildRepository :=
  { r with
    index := { r.index with sources := dirs }
    profiles := { r.profiles with profilesDirs := dirs } }

/-- Made again on another tree, a repository is the same but for its directories of profiles. -/
theorem ofKeys_again {σ : Type} {context : RepositoryContext} {keys : RepositoryKeys}
    (hname : (keys.value? "name").isSome) {t : FileTree} {j : Journal σ} {r : EbuildRepository}
    (h : ((ofKeys context keys).on t j).1 = .ok r) (u : FileTree) (j' : Journal σ) :
    (ofKeys context keys).on u j' = (.ok (r.withProfilesDirs (r.profilesDirsIn u)), j') := by
  obtain ⟨name, hname⟩ := Option.isSome_iff_exists.1 hname
  unfold ofKeys at h ⊢
  rw [hname] at h ⊢
  obtain ⟨location, hlocation, h⟩ := Scan.on_lift_bind_eq_ok h
  obtain ⟨parsed, hparsed, h⟩ := Scan.on_lift_bind_eq_ok h
  rw [pure_bind] at h
  obtain ⟨master, hmaster, h⟩ := Scan.on_lift_bind_eq_ok h
  rw [Scan.on_bind_of_ok (Scan.on_read t j)] at h
  obtain ⟨format, hformat, h⟩ := Scan.on_lift_bind_eq_ok h
  rw [hlocation]
  simp only [hparsed, hmaster, hformat]
  cases h
  rfl

/-- Makes a repository and takes it into use. -/
def make (context : RepositoryContext) (keys : RepositoryKeys) (t : FileTree) :
    Except Error (Service EbuildMemo EbuildQuestion) :=
  ((ofKeys context keys : Scan Unit EbuildRepository).run t ()).1.map service

theorem profilesDirsIn_inj {r : EbuildRepository} {t u : FileTree} :
    r.profilesDirsIn t = r.profilesDirsIn u ↔
      t.isPresent r.ownProfiles = u.isPresent r.ownProfiles := by
  unfold profilesDirsIn
  rw [List.append_cancel_left_eq]
  cases t.isPresent r.ownProfiles <;> cases u.isPresent r.ownProfiles <;> simp

section
variable {context : RepositoryContext} {keys : RepositoryKeys} {t : FileTree}
  {r : EbuildRepository} (hname : (keys.value? "name").isSome)
  (hmade : ((ofKeys context keys : Scan Unit EbuildRepository).run t ()).1 = .ok r)
include hname hmade

theorem make_again (u : FileTree) :
    make context keys u = .ok (r.withProfilesDirs (r.profilesDirsIn u)).service := by
  unfold make
  rw [Scan.run_eq_on, ofKeys_again hname hmade]
  rfl

theorem eq_withProfilesDirs : r = r.withProfilesDirs (r.profilesDirsIn t) := by
  have hagain := ofKeys_again hname hmade t ⟨(), []⟩
  rw [Scan.run_eq_on, hagain] at hmade
  exact (Except.ok.inj hmade).symm

/-- A source repository is as if it were made anew if and only if its directory of profiles was
neither made nor removed since it was made. -/
theorem asFresh_iff (x : Situation EbuildMemo) :
    r.service.AsFresh (make context keys) x ↔
      t.isPresent r.ownProfiles = x.files.isPresent r.ownProfiles := by
  have heq := eq_withProfilesDirs hname hmade
  constructor
  · rintro ⟨s, hs, halike⟩
    obtain rfl := Except.ok.inj ((make_again hname hmade x.files).symm.trans hs)
    -- the list of directories is a question of its own and tells the two apart
    have htold := halike [] _ (.profile .directories)
    have hdirs : r.profiles.profilesDirs = r.profilesDirsIn x.files :=
      Except.ok.inj (congrArg Prod.fst htold)
    rw [← profilesDirsIn_inj, ← hdirs]
    exact congrArg (fun r => r.profiles.profilesDirs) heq.symm
  · intro hpresent
    refine ⟨r.service, ?_, ?_⟩
    · rw [make_again hname hmade, ← profilesDirsIn_inj.2 hpresent, ← heq]
    · rw [next_invalidated]
      exact Service.Alike.refl _ _

end

end EbuildRepository

/-! ## Installed packages -/

/-- What a database of installed packages is asked. -/
inductive InstalledQuestion : Type → Type 1 where
  | package {α : Type} (q : Question α) : InstalledQuestion α
  | provided : InstalledQuestion (List VirtualEntry)
  | providedMetadata (e : VirtualEntry) : InstalledQuestion Metadata

namespace InstalledRepository

def reply {α : Type} (r : InstalledRepository) : InstalledQuestion α → Scan InstalledMemo α
  | .package q => r.answer q
  | .provided => r.provided
  | .providedMetadata e => r.providedMetadata e

def service (r : InstalledRepository) : Service InstalledMemo InstalledQuestion where
  reply := r.reply
  freshMemo := r.freshMemo
  invalidate := r.invalidate
  regenerate := r.regenerate

/-- Nothing that was remembered survives an invalidation, the provided virtuals included. -/
theorem next_invalidated (r : InstalledRepository) (x : Situation InstalledMemo) :
    r.service.next x .invalidated = r.service.start x.files := rfl

/-- Makes a repository, whatever the files are, and takes it into use. -/
def make (context : RepositoryContext) (keys : RepositoryKeys) (_ : FileTree) :
    Except Error (Service InstalledMemo InstalledQuestion) :=
  (ofKeys context keys).map service

theorem asFresh {context : RepositoryContext} {keys : RepositoryKeys} {r : InstalledRepository}
    (hmade : ofKeys context keys = .ok r) (x : Situation InstalledMemo) :
    r.service.AsFresh (make context keys) x := by
  refine ⟨r.service, ?_, ?_⟩
  · unfold make
    rw [hmade]
    rfl
  · rw [next_invalidated]
    exact Service.Alike.refl _ _

end InstalledRepository

/-! ## Invalidation -/

/-- However it was used and the files changed, an invalidated database of installed packages is as
if it were made anew, and an invalidated source repository is so if and only if its directory of
profiles was neither made nor removed since it was made. -/
theorem invalidated_asFresh_iff {context : RepositoryContext} {keys keys' : RepositoryKeys}
    {t t' : FileTree} {r : EbuildRepository} {i : InstalledRepository}
    (hname : (keys.value? "name").isSome)
    (hmade : ((EbuildRepository.ofKeys context keys : Scan Unit EbuildRepository).run t ()).1 =
      .ok r)
    (hinstalled : InstalledRepository.ofKeys context keys' = .ok i)
    (history : List (Event EbuildQuestion)) (history' : List (Event InstalledQuestion)) :
    let x := r.service.after (r.service.start t) history
    let x' := i.service.after (i.service.start t') history'
    (r.service.AsFresh (EbuildRepository.make context keys) x ↔
        t.isPresent r.ownProfiles = x.files.isPresent r.ownProfiles) ∧
      i.service.AsFresh (InstalledRepository.make context keys') x' :=
  ⟨EbuildRepository.asFresh_iff hname hmade _, InstalledRepository.asFresh hinstalled _⟩

/-- A context without masters. -/
def plainContext : RepositoryContext :=
  ⟨none, none, fun _ => .error (.configuration .registryGone), .none⟩

def treeKeys : RepositoryKeys := ⟨[("location", "/r"), ("name", "r")]⟩

/-- A tree without a directory of profiles. -/
def emptyTree : FileTree := ⟨⟨[(["r"], .directory)]⟩⟩

/-- The tree with a directory of profiles that lists a category. -/
def profiledTree : FileTree :=
  ⟨⟨[(["r"], .directory), (["r", "profiles"], .directory),
    (["r", "profiles", "categories"], .text "cat\n")]⟩⟩

def treeRepository : EbuildRepository where
  name := "r"
  location := "/r"
  masterLocation := none
  transport := none
  targets := ""
  options := ""
  index := ⟨"r", "/r", .tree, [], ⟨.ebuild, none⟩⟩
  profiles := ⟨"r", [], [], .none⟩
  namesCache := ⟨"/r/.cache/names/r", "r"⟩

def installedRepository : InstalledRepository where
  name := ⟨"r", by decide⟩
  location := "/r"
  root := "/"
  providesCache := "/r/.cache/provides"
  index := ⟨"r", "/r", .installed, [], ⟨.vdb, none⟩⟩
  namesCache := ⟨"/r/.cache/names/r", "r"⟩

theorem ofKeys_treeKeys : ((EbuildRepository.ofKeys plainContext treeKeys :
    Scan Unit EbuildRepository).run emptyTree ()).1 = .ok treeRepository := by
  rfl

theorem installed_ofKeys_treeKeys :
    InstalledRepository.ofKeys plainContext treeKeys = .ok installedRepository := by
  rfl

/-- The tree is asked for its categories, and then gets a directory of profiles. -/
def lateProfiles : List (Event EbuildQuestion) :=
  [.asked (.package .categories), .edited profiledTree]

theorem invalidated_asFresh_iff_lateProfiles :
    let x := treeRepository.service.after (treeRepository.service.start emptyTree) lateProfiles
    let x' := installedRepository.service.after (installedRepository.service.start emptyTree)
      [.asked .provided, .edited profiledTree]
    (treeRepository.service.AsFresh (EbuildRepository.make plainContext treeKeys) x ↔
        emptyTree.isPresent treeRepository.ownProfiles =
          x.files.isPresent treeRepository.ownProfiles) ∧
      installedRepository.service.AsFresh (InstalledRepository.make plainContext treeKeys) x' :=
  invalidated_asFresh_iff (by decide) ofKeys_treeKeys installed_ofKeys_treeKeys _ _

/-- The category that the new directory of profiles lists is not found. -/
theorem not_asFresh_lateProfiles :
    ((EbuildRepository.ofKeys plainContext treeKeys :
        Scan Unit EbuildRepository).run emptyTree ()).1 = .ok treeRepository ∧
      ¬ treeRepository.service.AsFresh (EbuildRepository.make plainContext treeKeys)
        (treeRepository.service.after (treeRepository.service.start emptyTree) lateProfiles) := by
  refine ⟨ofKeys_treeKeys, ?_⟩
  rintro ⟨s, hs, halike⟩
  obtain rfl := Except.ok.inj
    ((EbuildRepository.make_again (by decide) ofKeys_treeKeys profiledTree).symm.trans hs)
  have htold := congrArg (fun r => r.1.toOption) (halike [] _ (.package .categories))
  revert htold
  decide +kernel

end PackageCatalog
