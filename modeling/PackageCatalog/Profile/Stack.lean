import PackageCatalog.Config.Lines
import PackageCatalog.Profile.Basic

/-!
# Loading profiles

A profile directory names its parents in a `parent` file.  `Profile.stack` follows them and puts
each directory once, after its parents; `Profile.load` then reads the files of the directories in
that order.
-/

namespace PackageCatalog.Profile

variable {σ : Type}

/-! ## Stacking -/

/-- Parents this far up are no longer followed. -/
def parentLimit : Nat := 33

/-- The directories so far, parents first, and those that were entered. -/
structure Stack where
  dirs : List String := []
  entered : List String := []

/-- Puts a directory, after its parents, on the stack, unless it was entered before; `fuel` bounds
the number of generations. -/
def stack : Nat → Stack → String → Scan σ Stack
  | 0, _, dir => throw (.configuration (.parentsTooDeep dir))
  | fuel + 1, s, dir => do
    if s.entered.any (Path.same dir) then return s
    unless ← Scan.isDirectory dir do
      throw (.configuration (.noProfileDirectory dir))
    let parents := (← Config.readLineFile (Path.join dir "parent")).getD []
    let s ← parents.foldlM (fun s parent => stack fuel s (Path.join dir parent))
      { s with entered := s.entered ++ [dir] }
    return { s with dirs := s.dirs ++ [dir] }

/-! ## Files -/

/-- What the lines of a file, if it exists, do one after the other. -/
def applyLines {α : Type} (path : String) (apply : α → String → Scan σ α) (start : α) :
    Scan σ α := do
  match ← Config.readLineFile path with
  | none => return start
  | some lines => lines.foldlM apply start

/-- A line that is an error is reported and changes nothing. -/
def orWarn {α : Type} (path : String) (before : α) (outcome : Except Error α) : Scan σ α := do
  match outcome with
  | .ok after => return after
  | .error e => do
    Scan.warn (.malformed path e)
    return before

def loadVariables (dir : String) (p : Profile) : Scan σ Profile := do
  return ((← Config.readAssignmentFile (Path.join dir "make.defaults")).getD []).foldl assign p

def loadFlags (path : String) (flags : List UseFlag) : Scan σ (List UseFlag) :=
  applyLines path (fun flags line => orWarn path flags (applyFlagLine flags line)) flags

def loadMasks (dir : String) (p : Profile) : Scan σ Profile :=
  let path := Path.join dir "package.mask"
  applyLines path (fun p line => orWarn path p (p.applyMaskLine line)) p

def loadVirtuals (dir : String) (p : Profile) : Scan σ Profile :=
  let path := Path.join dir "virtuals"
  applyLines path (fun p line => do
    match p.applyVirtualsLine path line with
    | .ok p => return p
    | .error w => do
      Scan.warn w
      return p) p

/-- Goes on with the files of one more directory. -/
def loadDir (p : Profile) (dir : String) : Scan σ Profile := do
  let p ← loadVariables dir p
  let p := { p with useMask := ← loadFlags (Path.join dir "use.mask") p.useMask }
  let p := { p with useForce := ← loadFlags (Path.join dir "use.force") p.useForce }
  let p ← loadMasks dir p
  loadVirtuals dir p

/-- The profile of a list of directories and all their parents. -/
def load (dirs : List String) : Scan σ Profile := do
  let s ← dirs.foldlM (stack parentLimit) {}
  s.dirs.foldlM loadDir { dirs := s.dirs }

/-! ## Masks -/

/-- Whether some mask accepts a package version; its slot is asked for only if a mask needs it. -/
def anyAccepts (masks : List Atom) (n : QualifiedName) (v : Version) (repository : String)
    (slot : Scan σ (Option Slot)) : Scan σ Bool :=
  masks.anyM fun mask => mask.acceptsM n v repository slot

def masked (p : Profile) (n : QualifiedName) (v : Version) (repository : String)
    (slot : Scan σ (Option Slot)) : Scan σ Bool :=
  anyAccepts (p.masksOf n) n v repository slot

end PackageCatalog.Profile
