import PackageCatalog.Index.Basic

/-!
# Queries of an index

Each query makes known what it needs and then answers from the memo alone.
-/

namespace PackageCatalog.Index

def hasCategory (x : Index) (c : Category) : Scan IndexMemo Bool := do
  x.needCategories
  return (← Scan.memo).hasCategory c

def categories (x : Index) : Scan IndexMemo (List Category) := do
  x.needCategories
  return (← Scan.memo).categoryNames

/-- An unknown category has no packages. -/
def packages (x : Index) (c : Category) : Scan IndexMemo (List QualifiedName) := do
  x.needPackages c
  return ((← Scan.memo).packagesOf c).map fun p => ⟨c, p⟩

def hasPackage (x : Index) (n : QualifiedName) : Scan IndexMemo Bool :=
  x.lookupPackage n

/-- An unknown package has no versions. -/
def versions (x : Index) (n : QualifiedName) : Scan IndexMemo (List Version) := do
  x.needVersions n
  return (← Scan.memo).versionsOf n

def hasVersion (x : Index) (n : QualifiedName) (v : Version) : Scan IndexMemo Bool := do
  return v ∈ (← x.versions n)

/-- The record of a package version, read once. -/
def metadata (x : Index) (n : QualifiedName) (v : Version) : Scan IndexMemo Metadata := do
  match (← Scan.memo).metadata.get? (n, v) with
  | some m => return m
  | none =>
    if ← x.hasVersion n v then
      let m ← x.generator.generate x.location n v
      Scan.modifyMemo fun memo => { memo with metadata := memo.metadata.insert (n, v) m }
      return m
    else throw (.noSuchPackage n.text v.text x.repository)

/-- The categories that hold a package of this name. -/
def categoriesContaining (x : Index) (p : PackageName) : Scan IndexMemo (List Category) := do
  (← x.categories).filterM fun c => x.lookupPackage ⟨c, p⟩

def allPackages (x : Index) : Scan IndexMemo (List QualifiedName) := do
  return Ascending.ofList (← (← x.categories).mapM x.packages).flatten

def diagnostics : Scan IndexMemo (List Error) := return (← Scan.memo).diagnostics

/-- Forgets everything; the next query looks again. -/
def invalidate : Scan IndexMemo Unit := Scan.setMemo {}

/-- The record of a virtual, from the metadata of its provider. -/
def virtualMetadata (x : Index) (virtualName provider : QualifiedName) (v : Version) :
    Scan IndexMemo Metadata := do
  let m ← x.metadata provider v
  match Metadata.forVirtual virtualName provider v m with
  | .ok record => return record
  | .error e => throw e

end PackageCatalog.Index
