import PackageCatalog.Ascending
import PackageCatalog.Config.Lines
import PackageCatalog.Metadata.Generator
import PackageCatalog.Version.Order

/-!
# The index of a repository location

An index answers which categories, packages and versions exist below a location, and reads their
metadata.  It looks at a level only when a query needs it, remembers what it found in an
`IndexMemo`, and does not look again until the memo is dropped.  An entry with a malformed name is
reported, recorded among the diagnostics and skipped.

In a tree the entries of a package are files in a directory of its own, `cat/pkg/pkg-ver.ebuild`; an
installed-package database has one directory for each version, `cat/pkg-ver`.
-/

namespace PackageCatalog

inductive Layout where
  | tree
  | installed
  deriving DecidableEq

structure Index where
  repository : String
  location : String
  layout : Layout
  /-- Directories that may hold a `categories` file. -/
  sources : List String
  generator : Generator

/-- What an index remembers. -/
structure IndexMemo where
  /-- The known categories, each with whether all its packages are known. -/
  categories : Option (Table Category Bool) := none
  packages : Table Category (List PackageName) := ∅
  versions : Table QualifiedName (List Version) := ∅
  metadata : Table (QualifiedName × Version) Metadata := ∅
  diagnostics : List Error := []

namespace IndexMemo

def hasCategory (memo : IndexMemo) (c : Category) : Bool :=
  memo.categories.any (·.contains c)

def categoryNames (memo : IndexMemo) : List Category :=
  Ascending.ofList ((memo.categories.map Table.keys).getD [])

/-- The packages that are known so far. -/
def packagesOf (memo : IndexMemo) (c : Category) : List PackageName :=
  (memo.packages.get? c).getD []

def knowsPackage (memo : IndexMemo) (n : QualifiedName) : Bool :=
  n.package ∈ memo.packagesOf n.category

/-- The versions that are known so far. -/
def versionsOf (memo : IndexMemo) (n : QualifiedName) : List Version :=
  (memo.versions.get? n).getD []

def addPackage (memo : IndexMemo) (n : QualifiedName) : IndexMemo :=
  { memo with packages := memo.packages.update n.category [] (Ascending.insert n.package) }

def addVersion (memo : IndexMemo) (n : QualifiedName) (v : Version) : IndexMemo :=
  { memo with versions := memo.versions.update n [] (Ascending.insert v) }

/-- Marks the packages of a category as completely known. -/
def setLoaded (memo : IndexMemo) (c : Category) : IndexMemo :=
  { memo with categories := memo.categories.map fun t => t.insert c true }

end IndexMemo

/-- Directories of a tree that hold no packages. -/
def reservedDirs : List String :=
  ["CVS", ".svn", ".git", "distfiles", "scripts", "eclass", "licenses", "licences", "packages",
    "profiles", "metadata"]

namespace Index

/-! ## Looking into directories -/

/-- An entry with a malformed name: reported, recorded and passed over. -/
def skip (path : String) (e : Error) : Scan IndexMemo Unit := do
  Scan.warn (.entrySkipped path e)
  Scan.modifyMemo fun memo => { memo with diagnostics := memo.diagnostics ++ [e] }

def isHidden (name : String) : Bool := name.toList.head? == some '.'

/-- The visible names in a directory that are of the wanted kind, with their paths. -/
def listing (wanted : String → Scan IndexMemo Bool) (dir : String) :
    Scan IndexMemo (List (String × String)) := do
  let entries := ((← Scan.list dir).filter (!isHidden ·)).map fun name => (name, Path.join dir name)
  entries.filterM fun entry => wanted entry.2

def subdirectories (dir : String) : Scan IndexMemo (List (String × String)) :=
  listing Scan.isDirectory dir

def files (dir : String) : Scan IndexMemo (List (String × String)) :=
  listing Scan.isFile dir

/-! ## Categories -/

/-- A name found at `path`: a category, or a malformed entry. -/
def addCategory (found : Table Category Bool) (path name : String) :
    Scan IndexMemo (Table Category Bool) := do
  match Category.parse name with
  | .ok c => return found.insert c false
  | .error e => do
    skip path e
    return found

/-- The categories that a source lists, and whether it has a list. -/
def addSource (found : Table Category Bool × Bool) (dir : String) :
    Scan IndexMemo (Table Category Bool × Bool) := do
  let path := Path.join dir "categories"
  match ← Config.readLineFile path with
  | none => return found
  | some lines => return (← lines.foldlM (fun t line => addCategory t path line) found.1, true)

/-- The categories that the sources list or, if none has a list, the directories of the location. -/
def scanCategories (x : Index) : Scan IndexMemo (Table Category Bool) := do
  let (found, listed) ← x.sources.foldlM addSource (∅, false)
  if listed then return found
  let dirs := (← subdirectories x.location).filter fun entry => entry.1 ∉ reservedDirs
  dirs.foldlM (fun t entry => addCategory t entry.2 entry.1) found

def needCategories (x : Index) : Scan IndexMemo Unit := do
  if (← Scan.memo).categories.isNone then
    let found ← x.scanCategories
    Scan.modifyMemo fun memo => { memo with categories := some found }

/-! ## Packages -/

def categoryDir (x : Index) (c : Category) : String := Path.join x.location c.text

def packageDir (x : Index) (n : QualifiedName) : String :=
  Path.join (x.categoryDir n.category) n.package.text

/-- What a text is without a final part. -/
def stripSuffix? (suffix s : String) : Option String :=
  (Text.dropWord suffix.toList.reverse s.toList.reverse).map fun r => String.ofList r.reverse

def stripStart? (start s : String) : Option String :=
  (Text.dropWord start.toList s.toList).map String.ofList

def hasEntryFiles (x : Index) (dir : String) : Scan IndexMemo Bool := do
  return (← files dir).any fun entry =>
    (stripSuffix? x.generator.format.extension entry.1).isSome

/-- A directory of a category in a tree is a package if it holds entry files. -/
def addTreePackage (x : Index) (found : List PackageName) (entry : String × String) :
    Scan IndexMemo (List PackageName) := do
  match PackageName.parse entry.1 with
  | .ok p => return if ← x.hasEntryFiles entry.2 then Ascending.insert p found else found
  | .error e => do
    skip entry.2 e
    return found

/-- A directory of a category in an installed-package database is a package version, which is
remembered at once. -/
def addInstalledPackage (c : Category) (found : List PackageName) (entry : String × String) :
    Scan IndexMemo (List PackageName) := do
  match splitVersioned entry.1 with
  | .ok (p, v) => do
    Scan.modifyMemo (·.addVersion ⟨c, p⟩ v)
    return Ascending.insert p found
  | .error e => do
    skip entry.2 e
    return found

/-- Makes all packages of a category known, if there is such a category. -/
def needPackages (x : Index) (c : Category) : Scan IndexMemo Unit := do
  x.needCategories
  if (← Scan.memo).categories.bind (·.get? c) = some false then
    let dirs ← subdirectories (x.categoryDir c)
    let found ← match x.layout with
      | .tree => dirs.foldlM x.addTreePackage []
      | .installed => dirs.foldlM (addInstalledPackage c) []
    Scan.modifyMemo fun memo => (found.foldl (fun m p => m.addPackage ⟨c, p⟩) memo).setLoaded c

/-- Whether a package exists.  In a tree whose packages are not all known, the directory of the
package is looked for. -/
def lookupPackage (x : Index) (n : QualifiedName) : Scan IndexMemo Bool := do
  x.needCategories
  let memo ← Scan.memo
  match memo.categories.bind (·.get? n.category) with
  | none => return false
  | some loaded =>
    if loaded || memo.knowsPackage n then return memo.knowsPackage n
    match x.layout with
    | .tree =>
      let present ← Scan.isDirectory (x.packageDir n)
      if present then Scan.modifyMemo (·.addPackage n)
      return present
    | .installed => do
      x.needPackages n.category
      return (← Scan.memo).knowsPackage n

/-! ## Versions -/

/-- An entry file of a package is named for the package and a version. -/
def addEntryFile (x : Index) (p : PackageName) (found : List Version) (entry : String × String) :
    Scan IndexMemo (List Version) := do
  match stripSuffix? x.generator.format.extension entry.1 with
  | none => return found
  | some stem =>
    match stripStart? (p.text ++ "-") stem with
    | none => do
      Scan.warn (.entryUnmatched entry.2)
      return found
    | some text =>
      match Version.parse text with
      | .ok v => return Ascending.insert v found
      | .error e => do
        skip entry.2 e
        return found

/-- Makes all versions of a package known, if there is such a package; in an installed-package
database they are known with the package. -/
def needVersions (x : Index) (n : QualifiedName) : Scan IndexMemo Unit := do
  match x.layout with
  | .tree =>
    if (← Scan.memo).versions.contains n then return
    if ← x.lookupPackage n then
      let found ← (← files (x.packageDir n)).foldlM (x.addEntryFile n.package) []
      Scan.modifyMemo fun memo => { memo with versions := memo.versions.insert n found }
  | .installed => discard (x.lookupPackage n)

end Index

end PackageCatalog
