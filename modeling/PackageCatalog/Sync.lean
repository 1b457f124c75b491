import PackageCatalog.Text.Blank
import PackageCatalog.Warning

/-!
# Syncing

A transport brings a location up to date from a target.  The targets of a repository are tried in
order until one succeeds; what failed before it is reported as warnings.  Only if every target fails
has the sync failed, and without targets there is nothing to do.
-/

namespace PackageCatalog

/-- One attempt to bring `location` up to date. -/
structure SyncAttempt where
  location : String
  target : String
  options : String
  deriving DecidableEq

/-- What a transport does with an attempt. -/
abbrev Transport := SyncAttempt → Except Error Unit

structure SyncOutcome where
  /-- Whether there was anything to sync from. -/
  result : Except Error Bool
  attempts : List SyncAttempt
  warnings : List Warning

namespace SyncOutcome

/-- Tries targets in order; `failure` is the result if all of them fail. -/
def tryTargets (transport : Transport) (location options : String) (failure : Error) :
    List String → SyncOutcome
  | [] => ⟨.error failure, [], []⟩
  | target :: rest =>
    let attempt := ⟨location, target, options⟩
    match transport attempt with
    | .ok () => ⟨.ok true, [attempt], []⟩
    | .error e =>
      let later := tryTargets transport location options failure rest
      ⟨later.result, attempt :: later.attempts,
        .syncFailed location target e :: later.warnings⟩

end SyncOutcome

/-- Tries the blank-separated targets. -/
def syncTargets (transport : Transport) (location targets options : String) : SyncOutcome :=
  match Text.words targets with
  | [] => ⟨.ok false, [], []⟩
  | words =>
    .tryTargets transport location options (.syncFailed location (" ".intercalate words)) words

end PackageCatalog
