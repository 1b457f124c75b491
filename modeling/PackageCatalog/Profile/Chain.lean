import PackageCatalog.Ascending
import PackageCatalog.Profile.Stack
import PackageCatalog.Text.Lower

/-!
# The profiles of a repository

A repository has a list of `profiles` directories, those of its master first.  They hold the list of
available profiles, masks for the whole repository, the architectures and the mirrors.  One profile
is active: the one selected last, or else the configured default.  Everything is read when it is
first asked for and kept in a `ChainMemo` until that is dropped.

The URLs of a mirror come in an order that is drawn anew for each line of a mirrors file; `Shuffle`
is that choice.
-/

namespace PackageCatalog

/-! ## Shuffles -/

/-- A choice of order for the lists shuffled one after the other. -/
structure Shuffle where
  order : Nat → List String → List String
  perm : ∀ k urls, (order k urls).Perm urls

/-- Leaves every list as it is. -/
def Shuffle.none : Shuffle := ⟨fun _ urls => urls, fun _ urls => List.Perm.refl urls⟩

/-! ## Chains -/

/-- A line of a `profiles.desc` file. -/
structure ProfileDescriptor where
  arch : String
  path : String
  status : String
  deriving DecidableEq

structure ProfileChain where
  repository : String
  profilesDirs : List String
  /-- The directories of the default profile. -/
  configured : List String
  shuffle : Shuffle

structure ChainMemo where
  /-- The available profiles, each with what was loaded for it. -/
  available : Option (List (ProfileDescriptor × Option Profile)) := none
  selected : Option Profile := none
  repositoryMasks : Option (Table QualifiedName (List Atom)) := none
  archFlags : Option (List UseFlag) := none
  mirrors : Option (Table String (List String)) := none

namespace ProfileChain

open Profile (orWarn)

/-- Goes through the lines of a file, directory by directory: the lines of one are dealt with before
the next is read.  The second part of the result tells whether any directory has the file. -/
def foldEach {α : Type} (x : ProfileChain) (file : String)
    (apply : String → α → String → Scan ChainMemo α) (start : α) : Scan ChainMemo (α × Bool) :=
  x.profilesDirs.foldlM (fun found dir => do
    let path := Path.join dir file
    match ← Config.readLineFile path with
    | none => return found
    | some lines => return (← lines.foldlM (apply path) found.1, true)) (start, false)

/-! ## Available profiles -/

/-- The descriptor on a line, if it has at least three words. -/
def descriptor? (dir line : String) : Option ProfileDescriptor :=
  match Text.words line with
  | arch :: path :: status :: _ => some ⟨arch, Path.join dir path, status⟩
  | _ => none

def scanAvailable (x : ProfileChain) : Scan ChainMemo (List ProfileDescriptor) := do
  let found ← x.profilesDirs.mapM fun dir => do
    return (← Config.readLineFile (Path.join dir "profiles.desc")).map fun lines =>
      lines.filterMap (descriptor? dir)
  let lists := found.filterMap id
  if lists.isEmpty then throw (.configuration (.noProfilesDesc x.repository))
  return lists.flatten

def needAvailable (x : ProfileChain) :
    Scan ChainMemo (List (ProfileDescriptor × Option Profile)) := do
  match (← Scan.memo).available with
  | some available => return available
  | none =>
    let available := (← x.scanAvailable).map fun d => (d, none)
    Scan.modifyMemo fun memo => { memo with available := some available }
    return available

/-- The available profiles, those of the master first. -/
def available (x : ProfileChain) : Scan ChainMemo (List ProfileDescriptor) := do
  return (← x.needAvailable).map Prod.fst

/-- The profile of the descriptor at a position, loaded when it is first asked for; nothing if there
is no such descriptor. -/
def profileAt? (x : ProfileChain) (k : Nat) : Scan ChainMemo (Option Profile) := do
  match (← x.needAvailable)[k]? with
  | none => return none
  | some (_, some p) => return some p
  | some (d, none) =>
    let p ← Profile.load [d.path]
    Scan.modifyMemo fun memo =>
      { memo with available := memo.available.map fun list => list.set k (d, some p) }
    return some p

/-! ## The active profile -/

def profile (x : ProfileChain) : Scan ChainMemo Profile := do
  match (← Scan.memo).selected with
  | some p => return p
  | none =>
    let p ← Profile.load x.configured
    Scan.modifyMemo fun memo => { memo with selected := some p }
    return p

/-- Selects the profile of the descriptor at a position; tells whether there is one. -/
def select (x : ProfileChain) (k : Nat) : Scan ChainMemo Bool := do
  match ← x.profileAt? k with
  | none => return false
  | some p =>
    Scan.modifyMemo fun memo => { memo with selected := some p }
    return true

/-- Selects the profile of a descriptor made by hand, which need not be available. -/
def adopt (d : ProfileDescriptor) : Scan ChainMemo Unit := do
  let p ← Profile.load [d.path]
  Scan.modifyMemo fun memo => { memo with selected := some p }

/-- The position of the first profile for an architecture that is stable, or else of the first. -/
def choose (list : List ProfileDescriptor) (arch : String) : Option Nat :=
  (list.findIdx? fun d => d.arch == arch && d.status == "stable").or
    (list.findIdx? fun d => d.arch == arch)

/-- Selects a profile for an architecture, a stable one if there is one. -/
def selectByArch (x : ProfileChain) (arch : String) : Scan ChainMemo ProfileDescriptor := do
  let list ← x.available
  match (choose list arch).bind fun k => (list[k]?).map fun d => (k, d) with
  | none => throw (.configuration (.noProfileFor arch))
  | some (k, d) =>
    discard (x.select k)
    return d

def value (x : ProfileChain) (name : String) : Scan ChainMemo String :=
  return (← x.profile).value name

def virtuals (x : ProfileChain) : Scan ChainMemo (List (QualifiedName × Atom)) :=
  return (← x.profile).virtualList

/-! ## Masks -/

def needMasks (x : ProfileChain) : Scan ChainMemo (Table QualifiedName (List Atom)) := do
  match (← Scan.memo).repositoryMasks with
  | some masks => return masks
  | none =>
    let (masks, _) ← x.foldEach "package.mask" (fun path masks line =>
      orWarn path masks <| (parseMask line).map fun (n, atom) =>
        masks.update n [] (· ++ [atom])) ∅
    Scan.modifyMemo fun memo => { memo with repositoryMasks := some masks }
    return masks

/-- Runs a scan of the chain inside a larger memo. -/
abbrev Within (σ : Type) := {α : Type} → Scan ChainMemo α → Scan σ α

variable {σ : Type}

/-- Whether a mask of the whole repository accepts a package version. -/
def repositoryMasked (x : ProfileChain) (within : Within σ) (n : QualifiedName) (v : Version)
    (slot : Scan σ (Option Slot)) : Scan σ Bool := do
  let masks ← within x.needMasks
  Profile.anyAccepts ((masks.get? n).getD []) n v x.repository slot

/-- Whether a mask of the active profile accepts a package version. -/
def profileMasked (x : ProfileChain) (within : Within σ) (n : QualifiedName) (v : Version)
    (slot : Scan σ (Option Slot)) : Scan σ Bool := do
  (← within x.profile).masked n v x.repository slot

/-! ## Architectures and flags -/

/-- The architectures in the order of the files. -/
def archFlags (x : ProfileChain) : Scan ChainMemo (List UseFlag) := do
  match (← Scan.memo).archFlags with
  | some flags => return flags
  | none =>
    let (flags, found) ← x.foldEach "arch.list" (fun path flags line =>
      orWarn path flags <| (UseFlag.parse line).map fun flag =>
        if flag ∈ flags then flags else flags ++ [flag]) []
    unless found do Scan.warn (.noArchList x.repository)
    Scan.modifyMemo fun memo => { memo with archFlags := some flags }
    return flags

/-- Whether a flag is masked: by the active profile, or as an architecture that the active profile
does not enable. -/
def useMask (x : ProfileChain) (flag : UseFlag) : Scan ChainMemo Bool := do
  let p ← x.profile
  if p.useMasked flag then return true
  return flag ∈ (← x.archFlags) && !p.useEnabled flag

def useForce (x : ProfileChain) (flag : UseFlag) : Scan ChainMemo Bool :=
  return (← x.profile).useForced flag

/-! ## Mirrors -/

/-- A mirror has no more URLs than this. -/
def mirrorLimit : Nat := 6

/-- The mirrors so far, and how many lists of URLs were shuffled. -/
structure MirrorDraft where
  urls : Table String (List String) := ∅
  shuffled : Nat := 0

/-- The URLs of one more line, in their shuffled order and no more than the limit, come after those
of the lines before. -/
def addMirrorLine (x : ProfileChain) (draft : MirrorDraft) (line : String) : MirrorDraft :=
  match Text.words line with
  | [] => draft
  | mirror :: urls =>
    let drawn := (x.shuffle.order draft.shuffled urls).take mirrorLimit
    ⟨draft.urls.update mirror [] (· ++ drawn), draft.shuffled + 1⟩

def needMirrors (x : ProfileChain) : Scan ChainMemo (Table String (List String)) := do
  match (← Scan.memo).mirrors with
  | some mirrors => return mirrors
  | none =>
    let (draft, found) ← x.foldEach "thirdpartymirrors"
      (fun _ draft line => return x.addMirrorLine draft line) {}
    unless found do Scan.warn (.noMirrors x.repository)
    let mirrors := ⟨draft.urls.entries.map fun entry => (entry.1, entry.2.take mirrorLimit)⟩
    Scan.modifyMemo fun memo => { memo with mirrors := some mirrors }
    return mirrors

def mirrors (x : ProfileChain) (mirror : String) : Scan ChainMemo (List String) :=
  return ((← x.needMirrors).get? mirror).getD []

def mirrorNames (x : ProfileChain) : Scan ChainMemo (List String) :=
  return Ascending.ofList (← x.needMirrors).keys

/-! ## Expanded flags -/

def expandVariable : String := "USE_EXPAND"

/-- The text of the flag that a value of an expanded variable stands for. -/
def expandedFlag (name value : String) : String := Text.lower (name ++ "_" ++ value)

/-- The flags that the values of the expanded variables stand for. -/
def expandedFlags (x : ProfileChain) : Scan ChainMemo (List UseFlag) := do
  let p ← x.profile
  let texts := (p.incremental expandVariable).flatMap fun name =>
    (Text.words (p.value name)).map (expandedFlag name)
  texts.foldlM (fun flags text => do
    match UseFlag.parse text with
    | .ok flag => return Ascending.insert flag flags
    | .error e => do
      Scan.warn (.malformedFlag x.repository e)
      return flags) []

def expandPrefixes (x : ProfileChain) : Scan ChainMemo (List String) :=
  return ((← x.profile).incremental expandVariable).map Text.lower

def hiddenExpandPrefixes (x : ProfileChain) : Scan ChainMemo (List String) :=
  return ((← x.profile).incremental "USE_EXPAND_HIDDEN").map Text.lower

/-- The value of an expanded variable that a flag may stand for. -/
def valueOf? (flag name : String) : Option String :=
  match Text.dropWord (Text.lower name ++ "_").toList flag.toList with
  | some [] => none
  | some value => some (String.ofList value)
  | none => none

/-- The first expanded variable that a flag may belong to, with its value. -/
def splitExpanded? (names : List String) (flag : String) : Option (String × String) :=
  names.findSome? fun name => (valueOf? flag name).map fun value => (name, value)

def splitExpanded (x : ProfileChain) (flag : UseFlag) : Scan ChainMemo (String × String) := do
  let names := (← x.profile).incremental expandVariable
  match splitExpanded? names (Text.lower flag.text) with
  | some parts => return parts
  | none => throw (.invalidUseFlag (flag.text ++ " is not a USE_EXPAND flag"))

def expandName (x : ProfileChain) (flag : UseFlag) : Scan ChainMemo String :=
  return (← x.splitExpanded flag).1

def expandValue (x : ProfileChain) (flag : UseFlag) : Scan ChainMemo String :=
  return (← x.splitExpanded flag).2

/-- Forgets everything, the selection included. -/
def invalidate : Scan ChainMemo Unit := Scan.setMemo {}

end ProfileChain

end PackageCatalog
