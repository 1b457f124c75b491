import PackageCatalog.Name.Basic

/-!
# Versioned names

Entries of a repository are named `package-version`.  No package name ends in a hyphen and a
version, so at most one hyphen separates a package from a version; `splitVersioned` tries them from
the left.
-/

namespace PackageCatalog

def QualifiedName.versioned (n : QualifiedName) (v : Version) : String :=
  n.text ++ "-" ++ v.text

/-- The name of the entry of a package version: `package-version`. -/
def entryName (p : PackageName) (v : Version) : String :=
  p.text ++ "-" ++ v.text

/-- The reading at the first hyphen of the second part that separates a package from a version;
`before`, reversed, is what precedes that part. -/
def splitVersionedFrom (before : List Char) : List Char → Option (PackageName × Version)
  | [] => none
  | c :: r =>
    let later := splitVersionedFrom (c :: before) r
    if c = '-' then
      if h : isPackageText (String.ofList before.reverse) = true then
        match Version.ofChars? r with
        | some v => some (⟨_, h⟩, v)
        | none => later
      else later
    else later

def splitVersioned (s : String) : Except Error (PackageName × Version) :=
  match splitVersionedFrom [] s.toList with
  | some reading => .ok reading
  | none => .error (.invalidVersion s)

end PackageCatalog
