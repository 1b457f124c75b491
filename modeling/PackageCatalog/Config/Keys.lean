import PackageCatalog.Error
import PackageCatalog.Files.Path
import PackageCatalog.Table

/-!
# Repository configuration

A repository is configured by keyed texts.  An empty text counts as absent.
-/

namespace PackageCatalog

abbrev RepositoryKeys := Table String String

namespace RepositoryKeys

def value? (keys : RepositoryKeys) (key : String) : Option String :=
  (keys.get? key).filter fun v => !v.isEmpty

def require (keys : RepositoryKeys) (key : String) : Except Error String :=
  match keys.value? key with
  | some v => .ok v
  | none => .error (.configuration (.missingKey key))

end RepositoryKeys

/-- The place that stands for a cache that is switched off. -/
def disabledLocation : String := "/var/empty"

def isDisabled (path : String) : Bool := Path.same path disabledLocation

end PackageCatalog
