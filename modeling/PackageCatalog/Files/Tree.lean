import PackageCatalog.Error
import PackageCatalog.Files.Path
import PackageCatalog.Table

/-!
# File trees

A file tree maps places to directories and files.  A place is the list of names on the way from the
root; `FileTree.locate` finds the place a path names, where every part but the last has to be an
existing directory.  Paths that do not start with a slash start at `FileTree.workingPlace`, a
directory of their own.

Reading is a function of the tree; writing is a step in `FileM`, whose state is the tree and which
keeps what was done before a step failed.

Every file and directory may be read and written: there are no permissions, and there is no failure
of a device.  What is said of all trees is said of files that may be opened.
-/

namespace PackageCatalog

abbrev Place := List String

inductive FileEntry where
  | directory
  | text (content : String)
  /-- A file whose content is not text. -/
  | bytes (content : List UInt8)
  deriving DecidableEq

structure FileTree where
  entries : Table Place FileEntry

namespace FileTree

/-! ## Places -/

def empty : FileTree := ⟨Table.empty⟩

/-- Where relative paths start.  No name is empty, so no path from the root leads there. -/
def workingPlace : Place := [""]

/-- The root and the start of relative paths are always directories. -/
def get? (t : FileTree) (place : Place) : Option FileEntry :=
  if place.isEmpty || place == workingPlace then some .directory else t.entries.get? place

/-- Names longer than this cannot be looked up. -/
def nameLimit : Nat := 255

/-- Paths of this length and longer cannot be looked up. -/
def pathLimit : Nat := 4096

/-- One part further from a place, which has to be a directory. -/
def step (t : FileTree) (place : Place) (part : String) : Except FileProblem Place :=
  match t.get? place with
  | none => .error .missing
  | some .directory =>
    if Path.isVoid part then .ok place
    else if part == ".." then .ok place.dropLast
    else if nameLimit < part.utf8ByteSize then .error .nameTooLong
    else .ok (place ++ [part])
  | some _ => .error .notDirectory

/-- The parts of a path, if it can name anything at all. -/
def partsOf (path : String) : Except FileProblem (List String) :=
  if '\x00' ∈ path.toList then .error .nulCharacter
  else if path.isEmpty then .error .missing
  else if pathLimit ≤ path.utf8ByteSize then .error .nameTooLong
  else .ok (Path.parts path)

/-- The place at the end of the way that the parts of a path describe.  A path from the root starts
with an empty part. -/
def follow (t : FileTree) (parts : List String) : Except FileProblem Place :=
  parts.foldlM t.step (if (parts.headD "").isEmpty then [] else workingPlace)

/-- The place a path names; nothing need be there. -/
def locate (t : FileTree) (path : String) : Except FileProblem Place := do
  t.follow (← partsOf path)

/-- What is at a path. -/
def find (t : FileTree) (path : String) : Except FileProblem FileEntry := do
  let place ← t.locate path
  match t.get? place with
  | some entry => .ok entry
  | none => .error .missing

/-! ## Reading -/

def isPresent (t : FileTree) (path : String) : Bool := (t.find path).isOk

def isDirectory (t : FileTree) (path : String) : Bool :=
  match t.find path with
  | .ok .directory => true
  | _ => false

def isFile (t : FileTree) (path : String) : Bool :=
  match t.find path with
  | .ok (.text _) | .ok (.bytes _) => true
  | _ => false

def readText (t : FileTree) (path : String) : Except FileProblem String := do
  match ← t.find path with
  | .text content => .ok content
  | .directory => .error .isDirectory
  | .bytes _ => .error .notText

/-- The name under which an entry stands in a directory, if it does. -/
def nameIn? (dir place : Place) : Option String :=
  match place.getLast? with
  | some name => if place.dropLast = dir then some name else none
  | none => none

/-- The names in a directory, in ascending order. -/
def namesAt (t : FileTree) (place : Place) : List String :=
  (t.entries.keys.filterMap (nameIn? place)).mergeSort fun a b => compare a b != .gt

def list (t : FileTree) (path : String) : Except FileProblem (List String) := do
  let place ← t.locate path
  match t.get? place with
  | some .directory => .ok (t.namesAt place)
  | some _ => .error .notDirectory
  | none => .error .missing

/-! ## Writing -/

def put (t : FileTree) (place : Place) (entry : FileEntry) : FileTree :=
  ⟨t.entries.insert place entry⟩

/-- Without what is below a place. -/
def clear (t : FileTree) (place : Place) : FileTree :=
  ⟨⟨t.entries.entries.filter fun p => p.1 == place || !place.isPrefixOf p.1⟩⟩

/-- Without what is at a place and below it. -/
def dropPlace (t : FileTree) (place : Place) : FileTree :=
  ⟨⟨t.entries.entries.filter fun p => !place.isPrefixOf p.1⟩⟩

end FileTree

/-- Steps that change a file tree. -/
abbrev FileM := ExceptT FileProblem (StateM FileTree)

namespace FileM

/-- Without the empty parts at the end, which stand for slashes. -/
def dropEndSlashes (parts : List String) : List String :=
  (parts.reverse.dropWhile String.isEmpty).reverse

/-- The way to the directory in which the last part would stand. -/
def wayInto (parts : List String) : List String :=
  match parts.getLast? with
  | some last => if last ∈ [".", ".."] then parts else parts.dropLast ++ ["."]
  | none => []

/-- Replaces a file, or makes it in an existing directory.  A path with a slash at its end can only
name a directory. -/
def writeEntry (path : String) (entry : FileEntry) : FileM Unit := do
  let t ← get
  let parts ← (FileTree.partsOf path : Except FileProblem (List String))
  if dropEndSlashes parts != parts then
    discard (t.follow (wayInto (dropEndSlashes parts)) : Except FileProblem Place)
    throw .isDirectory
  let place ← (t.follow parts : Except FileProblem Place)
  match t.get? place with
  | some .directory => throw .isDirectory
  | _ => set (t.put place entry)

def writeText (path content : String) : FileM Unit := writeEntry path (.text content)

/-- Makes a directory in an existing one. -/
def makeDir (path : String) : FileM Unit := do
  let t ← get
  let parts ← (FileTree.partsOf path : Except FileProblem (List String))
  let place ← (t.follow (dropEndSlashes parts) : Except FileProblem Place)
  match t.get? place with
  | some _ => throw .alreadyThere
  | none => set (t.put place .directory)

/-- The outcome of a step as a value; what it changed stays changed. -/
def outcome {α : Type} (step : FileM α) : FileM (Except FileProblem α) := fun t =>
  let r := step.run.run t
  (.ok r.1, r.2)

/-- A problem with making a directory counts only if there is none. -/
def unlessDirectory (path : String) : Except FileProblem Unit → FileM Unit
  | .ok () => return
  | .error problem => do
    if !(← get).isDirectory path then throw problem

/-- Makes the first of a list of directories, each in the one after it, and before that the others
as far as they are missing. -/
def makeDirsFrom : List String → FileM Unit
  | [] => return
  | path :: above => do
    if path.isEmpty then return
    match ← outcome (makeDir path) with
    | .error .missing =>
      makeDirsFrom above
      unlessDirectory path (← outcome (makeDir path))
    | result => unlessDirectory path result

/-- Makes a directory and those above it, as far as they are missing. -/
def makeDirs (path : String) : FileM Unit := makeDirsFrom (Path.ancestors path)

/-- Removes a file, or a directory with all that is below it.  A directory is emptied first and
stays if its path, which may lead through it, then no longer does. -/
def remove (path : String) : FileM Unit := do
  let t ← get
  let place ← (t.locate path : Except FileProblem Place)
  match t.get? place with
  | none => throw .missing
  | some .directory =>
    let emptied := t.clear place
    set (if emptied.isPresent path then emptied.dropPlace place else emptied)
  | some _ => set (t.dropPlace place)

end FileM

end PackageCatalog
