import PackageCatalog.Metadata.Basic
import PackageCatalog.Scan

/-!
# Where metadata comes from

Entries of a source tree have their metadata in a cache below `metadata/md5-cache`, one file of
`KEY=VALUE` lines for each package version; installed packages have a directory each, with one file
for each key.  `Generator.generate` reads the record of a package version in either format.
-/

namespace PackageCatalog

inductive EntryFormat where
  | ebuild
  /-- The database of installed packages. -/
  | vdb
  deriving DecidableEq

namespace EntryFormat

def name : EntryFormat → String
  | .ebuild => "ebuild"
  | .vdb => "vdb"

/-- What the names of entry files end in; entries of an installed-package database are
directories. -/
def extension : EntryFormat → String
  | .ebuild => ".ebuild"
  | .vdb => ""

def parse (s : String) : Except Error EntryFormat :=
  if s == name .ebuild then .ok .ebuild
  else if s == name .vdb then .ok .vdb
  else .error (.configuration (.unknownEntryFormat s))

end EntryFormat

/-! ## Cache entries -/

/-- The pairs of the lines that hold an equals sign. -/
def cacheEntryKeys (content : String) : Table String String :=
  Table.ofList <|
    (((Text.lines content).map Text.trim).filter fun line => !line.isEmpty).filterMap
      (Text.cut? '=')

def Metadata.ofCacheEntry (eapis : Option EapiTable) (content : String) : Except Error Metadata :=
  ofKeys eapis (cacheEntryKeys content)

def cacheEntryPath (location : String) (n : QualifiedName) (v : Version) : String :=
  let cache := Path.join (Path.join location "metadata") "md5-cache"
  Path.join (Path.join cache n.category.text) (entryName n.package v)

/-! ## Installed packages -/

def installedKeys : List String :=
  ["EAPI", "DESCRIPTION", "SLOT", "HOMEPAGE", "SRC_URI", "LICENSE", "KEYWORDS", "DEPEND", "RDEPEND",
    "PDEPEND", "PROVIDE"]

def installedPath (location : String) (n : QualifiedName) (v : Version) : String :=
  Path.join (Path.join location n.category.text) (entryName n.package v)

variable {σ : Type}

/-- The values of the keys that have a file in the directory. -/
def readInstalledKeys (dir : String) : Scan σ (Table String String) := do
  let pairs ← installedKeys.mapM fun key => do
    match ← Scan.readText? (Path.join dir key) with
    | some value => return some (key, Text.trimEnd value)
    | none => return none
  return Table.ofList (pairs.filterMap id)

/-! ## Generators -/

structure Generator where
  format : EntryFormat
  eapis : Option EapiTable

namespace Generator

/-- A record, with the warnings that reading it gives. -/
def recordOf (g : Generator) (keys : Table String String) : Scan σ Metadata := do
  match Metadata.ofKeys g.eapis keys with
  | .ok m => do
    (Metadata.provideWarnings (Metadata.field keys "PROVIDE")).forM Scan.warn
    return m
  | .error e => throw e

def generate (g : Generator) (location : String) (n : QualifiedName) (v : Version) :
    Scan σ Metadata := do
  match g.format with
  | .ebuild =>
    let path := cacheEntryPath location n v
    match ← Scan.readText? path with
    | none => throw (.noCacheEntry (n.versioned v) path)
    | some content =>
      tryCatch (g.recordOf (cacheEntryKeys content)) fun e => throw (.badCacheEntry path e)
  | .vdb =>
    let keys ← readInstalledKeys (installedPath location n v)
    g.recordOf keys

end Generator

end PackageCatalog
