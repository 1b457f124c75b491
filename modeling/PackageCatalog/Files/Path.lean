import PackageCatalog.Text.Blank

/-!
# Paths

A path is a text whose parts are separated by slashes.  Joining works on the text: nothing is
resolved, and `..` stays.  Two paths are the same if they have the same components (`Path.same`),
which leaves out repeated slashes, slashes at the end and inner `.` parts.
-/

namespace PackageCatalog.Path

/-! ## Algorithm -/

def isAbsolute (path : String) : Bool := path.toList.head? == some '/'

/-- The parts between slashes, empty ones included. -/
def parts (path : String) : List String :=
  (Text.splitBy (· == '/') path.toList).map String.ofList

/-- An absolute second part replaces the first; an empty one adds a slash. -/
def join (base part : String) : String :=
  if isAbsolute part then part
  else if base.isEmpty || base.toList.getLast? == some '/' then base ++ part
  else base ++ "/" ++ part

/-- Parts that name no place of their own. -/
def isVoid (part : String) : Bool := part.isEmpty || part == "."

/-- The parts that count; a leading `.` of a relative path is one of them. -/
def components (path : String) : List String :=
  match parts path with
  | [] => []
  | first :: rest =>
    if isAbsolute path then "/" :: rest.filter (!isVoid ·)
    else (if first.isEmpty then [] else [first]) ++ rest.filter (!isVoid ·)

def same (a b : String) : Bool := components a == components b

/-- Without the void parts at the end; the first part stays, for an absolute path the empty part
before its root. -/
def dropVoidEnd : List String → List String
  | [] => []
  | first :: rest => first :: (rest.reverse.dropWhile isVoid).reverse

/-- The last component, if it is a name. -/
def fileName? (path : String) : Option String :=
  match (components path).getLast? with
  | some name => if name ∈ ["/", ".", ".."] then none else some name
  | none => none

/-- The text up to the last component; a root, like the empty path, has no parent. -/
def parent? (path : String) : Option String :=
  match components path with
  | [] => none
  | ["/"] => none
  | [_] => some ""
  | _ =>
    let before := dropVoidEnd (dropVoidEnd (parts path)).dropLast
    if before == [""] then some "/" else some ("/".intercalate before)

def ancestorsWithin : Nat → String → List String
  | 0, _ => []
  | bound + 1, path =>
    path :: match parent? path with
      | some above => ancestorsWithin bound above
      | none => []

/-- A path, its parent, the parent of that, and so on. -/
def ancestors (path : String) : List String := ancestorsWithin ((components path).length + 1) path

/-- The part of a file name before its last period, and the part after it; a period at the start
does not count. -/
def stemAndExtension? (name : String) : Option (String × String) :=
  match Text.splitOnce '.' name.toList.reverse with
  | some (after, before) =>
    if before = [] then none
    else some (String.ofList before.reverse, String.ofList after.reverse)
  | none => none

/-! ## Lemmas -/

theorem join_of_isAbsolute {base part : String} (h : isAbsolute part = true) :
    join base part = part := by
  simp [join, h]

theorem same_refl (path : String) : same path path = true := by
  simp [same]

theorem same_iff {a b : String} : same a b = true ↔ components a = components b := by
  simp [same]

end PackageCatalog.Path
