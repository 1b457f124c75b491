import PackageCatalog.Unreadable

/-!
# Failures

Each way an operation can fail is one constructor, named for its cause and holding what the report
names.  `Error.message` words the report; `Error.kind` groups causes into the classes a caller
distinguishes.  A name error spoils one entry only: whoever scans a collection records it and goes
on (`Error.isNameError_iff`).
-/

namespace PackageCatalog

/-- Why a file or directory could not be used. -/
inductive FileProblem where
  | missing
  | alreadyThere
  | notDirectory
  | isDirectory
  | nameTooLong
  | notText
  /-- A path with a NUL character names nothing. -/
  | nulCharacter
  deriving DecidableEq

def FileProblem.message : FileProblem → String
  | .missing => "No such file or directory (os error 2)"
  | .alreadyThere => "File exists (os error 17)"
  | .notDirectory => "Not a directory (os error 20)"
  | .isDirectory => "Is a directory (os error 21)"
  | .nameTooLong => "File name too long (os error 36)"
  | .notText => "stream did not contain valid UTF-8"
  | .nulCharacter => "file name contained an unexpected NUL byte"

/-- Why a text is not a whole number of 32 bits. -/
inductive IntegerProblem where
  | empty
  | invalidDigit
  | tooLarge
  | tooSmall
  deriving DecidableEq

def IntegerProblem.message : IntegerProblem → String
  | .empty => "cannot parse integer from empty string"
  | .invalidDigit => "invalid digit found in string"
  | .tooLarge => "number too large to fit in target type"
  | .tooSmall => "number too small to fit in target type"

/-- What is wrong with a configuration, or with an object made from one. -/
inductive ConfigurationProblem where
  /-- A text that is no list of assignments. -/
  | notAssignments (found : Unreadable)
  /-- A problem found in the file or directory at `path`. -/
  | inside (path : String) (problem : ConfigurationProblem)
  | missingKey (key : String)
  | noRepositoryFile (path : String)
  | noEapiZero
  | noEapiDirectory (dir : String)
  | unknownEntryFormat (format : String)
  | parentsTooDeep (dir : String)
  | noProfileDirectory (dir : String)
  | noProfilesDesc (repository : String)
  | noProfileFor (arch : String)
  | providerGone (repository : String)
  | providesNothing (repository : String)
  | otherProvider (virtualName repository asked : String)
  /-- To follow virtuals to their providers does not come to an end. -/
  | virtualsCircle
  | noRoot
  | noMaster (master : String)
  | masterNotEbuild (master : String)
  | masterWithoutLocation (master : String)
  | noTransport (repository : String)
  | nameTaken (repository : String)
  | importanceNotInteger (text : String) (problem : IntegerProblem)
  | registryGone
  /-- A problem that a caller's own transport or entry source reports. -/
  | reported (text : String)
  deriving DecidableEq

def ConfigurationProblem.message : ConfigurationProblem → String
  | .notAssignments found => found.message
  | .inside path problem => s!"{path}: configuration error: {problem.message}"
  | .missingKey key => s!"key '{key}' not specified or empty"
  | .noRepositoryFile path => s!"{path}: no such repository file"
  | .noEapiZero => "no configuration found for EAPI 0"
  | .noEapiDirectory dir => s!"no EAPI configuration directory at '{dir}'"
  | .unknownEntryFormat format => s!"unknown entry format '{format}'"
  | .parentsTooDeep dir => s!"{dir}: profile parents nested too deeply"
  | .noProfileDirectory dir => s!"{dir}: profile directory does not exist"
  | .noProfilesDesc repository => s!"no profiles.desc found for repository '{repository}'"
  | .noProfileFor arch => s!"cannot find a profile appropriate for '{arch}'"
  | .providerGone repository => s!"provider repository '{repository}' is gone"
  | .providesNothing repository => s!"repository '{repository}' no longer provides virtuals"
  | .otherProvider virtualName repository asked =>
    s!"{virtualName} is provided by repository '{repository}', not '{asked}'"
  | .virtualsCircle => "virtuals provide one another in a circle"
  | .noRoot => "no root specified for installed_virtuals repository"
  | .noMaster master => s!"master repository '{master}' does not exist"
  | .masterNotEbuild master => s!"master repository '{master}' is not an ebuild repository"
  | .masterWithoutLocation master => s!"master repository '{master}' has no location"
  | .noTransport repository => s!"no syncer available for repository '{repository}'"
  | .nameTaken repository => s!"repository '{repository}' already exists"
  | .importanceNotInteger text problem =>
    s!"importance '{text}' is not an integer: {problem.message}"
  | .registryGone => "repository registry is no longer available"
  | .reported text => text

/-- Where a dependency specification was found unreadable. -/
inductive DependencyProblem where
  /-- The value of a dependency field. -/
  | expression (found : Unreadable)
  /-- A single specification, quoted before the problem. -/
  | atom (found : Unreadable)
  /-- A specification that accepts no package, where one that names a package is needed. -/
  | notUnique (text : String)
  deriving DecidableEq

def DependencyProblem.message : DependencyProblem → String
  | .expression found => s!"invalid dep string: {found.text}: " ++ found.message
  | .atom found => s!"{found.text}: invalid dep: {found.text}: " ++ found.message
  | .notUnique text => s!"{text}: does not restrict to a unique package"

/-- A failed operation. -/
inductive Error where
  | configuration (problem : ConfigurationProblem)
  | noSuchPackage (name version repository : String)
  | invalidCategory (text : String)
  | invalidPackageName (text : String)
  | invalidRepositoryName (text : String)
  | invalidUseFlag (text : String)
  | invalidVersion (text : String)
  | invalidEapi (text : String)
  | invalidKeyword (text : String)
  /-- The metadata cache has no file for the package version. -/
  | noCacheEntry (versioned path : String)
  /-- The metadata cache file at `path` does not describe a package version. -/
  | badCacheEntry (path : String) (cause : Error)
  /-- A line of a cache that does not describe a package version. -/
  | badCacheLine (line : String)
  | missingField (field : String)
  | dependency (problem : DependencyProblem)
  | file (path : String) (problem : FileProblem)
  | syncFailed (location targets : String)
  | unknownFormat (format : String)
  deriving DecidableEq

/-- The class of a failure. -/
inductive ErrorKind where
  | configuration
  | noSuchPackage
  | invalidCategory
  | invalidPackageName
  | invalidRepositoryName
  | invalidUseFlag
  | invalidVersion
  | invalidEapi
  | invalidKeyword
  | invalidCacheEntry
  | missingField
  | dependency
  | file
  | syncFailed
  | unknownFormat
  deriving DecidableEq

namespace Error

def kind : Error → ErrorKind
  | .configuration _ => .configuration
  | .noSuchPackage .. => .noSuchPackage
  | .invalidCategory _ => .invalidCategory
  | .invalidPackageName _ => .invalidPackageName
  | .invalidRepositoryName _ => .invalidRepositoryName
  | .invalidUseFlag _ => .invalidUseFlag
  | .invalidVersion _ => .invalidVersion
  | .invalidEapi _ => .invalidEapi
  | .invalidKeyword _ => .invalidKeyword
  | .noCacheEntry .. => .invalidCacheEntry
  | .badCacheEntry .. => .invalidCacheEntry
  | .badCacheLine _ => .invalidCacheEntry
  | .missingField _ => .missingField
  | .dependency _ => .dependency
  | .file .. => .file
  | .syncFailed .. => .syncFailed
  | .unknownFormat _ => .unknownFormat

def message : Error → String
  | .configuration problem => "configuration error: " ++ problem.message
  | .noSuchPackage name version repository =>
    s!"no such package: {name}-{version}::{repository}"
  | .invalidCategory text => s!"invalid category name: {text}"
  | .invalidPackageName text => s!"invalid package name: {text}"
  | .invalidRepositoryName text => s!"invalid repository name: {text}"
  | .invalidUseFlag text => s!"invalid USE flag name: {text}"
  | .invalidVersion text => s!"invalid version: {text}"
  | .invalidEapi text => s!"invalid EAPI: {text}"
  | .invalidKeyword text => s!"invalid keyword: {text}"
  | .noCacheEntry versioned path =>
    s!"invalid cache entry: {versioned}: no metadata cache entry at '{path}'"
  | .badCacheEntry path cause => s!"invalid cache entry: {path}: {cause.message}"
  | .badCacheLine line => s!"invalid cache entry: {line}"
  | .missingField field => s!"missing required field: {field}"
  | .dependency problem => "dependency parse error: " ++ problem.message
  | .file path problem => s!"{path}: {problem.message}"
  | .syncFailed location targets =>
    s!"syncing '{location}' failed for every target: {targets}"
  | .unknownFormat format => s!"unknown format: {format}"

/-- Whether the failure concerns the name of one entry: the entry is skipped, and the surrounding
operation goes on. -/
def isNameError (e : Error) : Bool :=
  match e.kind with
  | .invalidCategory | .invalidPackageName | .invalidRepositoryName | .invalidUseFlag
  | .invalidVersion => true
  | _ => false

theorem isNameError_iff (e : Error) :
    e.isNameError = true ↔ ∃ text, e = .invalidCategory text ∨ e = .invalidPackageName text ∨
      e = .invalidRepositoryName text ∨ e = .invalidUseFlag text ∨ e = .invalidVersion text := by
  cases e <;> simp [isNameError, kind]

end Error

end PackageCatalog
