import PackageCatalog.Error
import PackageCatalog.Text.Quoted

/-!
# Warnings

What is wrong but does not stop an operation is reported as a warning: an entry that was skipped, a
cache that cannot be used, a file that is expected but absent.  Each kind of warning is one
constructor, and `Warning.message` words it.
-/

namespace PackageCatalog

/-- Why a names cache cannot be used. -/
inductive NamesCacheProblem where
  | unreadable (path : String) (problem : FileProblem)
  | otherFormat (tag : String)
  | otherRepository (repository : String)
  /-- A version file stands above the place of this repository's cache. -/
  | oldStyle (path : String)
  | neverGenerated
  deriving DecidableEq

def NamesCacheProblem.message : NamesCacheProblem → String
  | .unreadable path problem => s!"cannot read {Text.quote path}: {problem.message}"
  | .otherFormat tag => s!"unsupported format '{tag}'"
  | .otherRepository repository => s!"generated for repository '{repository}'"
  | .oldStyle path => s!"found an old-style cache at {Text.quote path}; remove it and regenerate"
  | .neverGenerated => "no version information; it has not been generated"

inductive Warning where
  /-- An entry of an index with a malformed name. -/
  | entrySkipped (path : String) (cause : Error)
  /-- An entry file that does not carry the name of its package. -/
  | entryUnmatched (path : String)
  /-- A malformed line of a file, or a malformed file. -/
  | malformed (path : String) (cause : Error)
  | malformedVirtual (path line : String)
  | noArchList (repository : String)
  | noMirrors (repository : String)
  | malformedFlag (repository : String) (cause : Error)
  | provideIgnored (token : String) (cause : Error)
  | namesCacheUnusable (repository location : String) (problem : NamesCacheProblem)
  | cannotRead (path : String) (problem : FileProblem)
  | cannotWrite (path : String) (problem : FileProblem)
  | cannotReadProvides (path : String) (problem : FileProblem)
  | providesHeader (path format repository : String)
  | providesLine (line : String) (cause : Error)
  | packageSkipped (repository versioned : String) (cause : Error)
  | virtualSkipped (repository virtualName : String) (cause : Error)
  | repositoryNameUnreadable (cause : Error)
  | repositoryNameMissing (profiles fallback : String)
  | noSlot (repository versioned : String) (cause : Error)
  | syncFailed (location target : String) (cause : Error)
  deriving DecidableEq

def Warning.message : Warning → String
  | .entrySkipped path cause => s!"skipping {Text.quote path}: {cause.message}"
  | .entryUnmatched path => s!"unmatched entry: {Text.quote path}"
  | .malformed path cause => s!"{cause.message}: {Text.quote path}"
  | .malformedVirtual path line => s!"malformed virtuals line '{line}': {Text.quote path}"
  | .noArchList repository =>
    s!"{repository}: no arch.list found, arch flags may incorrectly show up as unmasked"
  | .noMirrors repository => s!"{repository}: no thirdpartymirrors found"
  | .malformedFlag repository cause => s!"{repository}: {cause.message}"
  | .provideIgnored token cause => s!"ignoring PROVIDE entry '{token}': {cause.message}"
  | .namesCacheUnusable repository location problem =>
    s!"names cache for '{repository}' at {Text.quote location} cannot be used: {problem.message}"
  | .cannotRead path problem => s!"cannot read {Text.quote path}: {problem.message}"
  | .cannotWrite path problem => s!"cannot write {Text.quote path}: {problem.message}"
  | .cannotReadProvides path problem =>
    s!"cannot read provides cache {Text.quote path}: {problem.message}"
  | .providesHeader path format repository =>
    s!"provides cache at {Text.quote path} has an invalid header ('{format}', '{repository}'), " ++
      "scanning installed packages instead"
  | .providesLine line cause => s!"skipping provides cache line '{line}': {cause.message}"
  | .packageSkipped repository versioned cause =>
    s!"{repository}: skipping {versioned}: {cause.message}"
  | .virtualSkipped repository virtualName cause =>
    s!"{repository}: skipping {virtualName}: {cause.message}"
  | .repositoryNameUnreadable cause => cause.message
  | .repositoryNameMissing profiles fallback =>
    s!"couldn't read a repo_name file in {Text.quote profiles}, " ++
      s!"falling back to generated name '{fallback}' " ++
      "(ignore this if the repository has not been synced yet)"
  | .noSlot repository versioned cause => s!"{repository}: no slot for {versioned}: {cause.message}"
  | .syncFailed location target cause =>
    s!"sync of {Text.quote location} from {target} failed: {cause.message}"

end PackageCatalog
